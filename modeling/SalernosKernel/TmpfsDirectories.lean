import SalernosKernel.Runs
import SalernosKernel.Spans
import SalernosKernel.TailQueue
import SalernosKernel.VfsCreate

/-! # Integrity of tmpfs directories

The system calls that change the directories of one tmpfs, with the entries of each directory in
the tail queue that `com/fs/tmpfs.c` keeps. -/
namespace TmpfsDirectories

open Vfs VfsLookup VfsSymlinks TmpfsInsert VfsCreate PathResolution Runs List

def head : ℕ := 8

def dirent (v : ℕ) : ℕ := 16 * v

/-- A vnode with its `struct tmpfs_node`. The queue holds the links of all entries that were ever
inserted in it: `TAILQ_REMOVE` leaves those of the entry as they are. -/
structure TmpfsNode where
  type : VnodeType
  parent : Option ℕ
  name : Bytes
  link : Bytes
  entries : TailQueue.Queue

structure State where
  node : ℕ → TmpfsNode
  next : ℕ
  root : (node 0).type = .dir
  parent : ∀ v p, (node v).parent = some p → (node p).type = .dir
  unused : ∀ v, next ≤ v → (node v).type ≠ .dir

def emptyQueue : TailQueue.Queue := TailQueue.init head ⟨fun _ => 0, 0, 0⟩

def comFsTmpfsMount : State where
  node v := if v = 0 then ⟨.dir, none, [], [], emptyQueue⟩ else ⟨.file, none, [], [], emptyQueue⟩
  next := 1
  root := rfl
  parent v p h := by split_ifs at h
  unused v hv := by
    rw [if_neg (Nat.ne_of_gt hv)]
    decide

def State.entries (s : State) (d : ℕ) : List (Bytes × ℕ) :=
  (TailQueue.elems (s.node d).entries.mem s.next (s.node d).entries.first).map fun a =>
    ((s.node (a / 16)).name, a / 16)

def State.view (s : State) : Tree where
  node v := ⟨(s.node v).type, 0, none, decide (v = 0), (s.node v).parent, s.entries v,
    (s.node v).link⟩
  vfs _ := ⟨none, 0⟩
  numVfs := 1
  mounted _ _ h := by cases h
  root _ h := ⟨(Nat.lt_one_iff.mp h).symm, s.root⟩
  mountpoint _ _ h := by cases h
  parent := s.parent
  bound _ := Nat.one_pos

theorem State.lt_next {s : State} {v : ℕ} (h : (s.node v).type = .dir) : v < s.next :=
  Nat.lt_of_not_le fun hle => s.unused v hle h

def State.insert (s : State) (dir : ℕ) (name : Bytes) (type : VnodeType) (link : Bytes)
    (hdir : (s.node dir).type = .dir) : State where
  node v :=
    if v = dir then { s.node dir with
      entries := TailQueue.insertTail head (s.node dir).entries (dirent s.next) }
    else if v = s.next then ⟨type, some dir, name, link, emptyQueue⟩
    else s.node v
  next := s.next + 1
  root := by
    have hne := (State.lt_next s.root).ne
    split_ifs with hd
    · exact hdir
    · exact s.root
  parent v p h := by
    have hp : (s.node p).type = .dir := by
      split_ifs at h
      · exact s.parent dir p h
      · exact Option.some.inj h ▸ hdir
      · exact s.parent v p h
    have hne := (State.lt_next hp).ne
    split_ifs with hd
    · exact hdir
    · exact hp
  unused v hv := by
    have hdirlt := State.lt_next hdir
    rw [if_neg (by omega), if_neg (by omega)]
    exact s.unused v (by omega)

/-- With the assertion that `dir` is a directory. -/
def State.createCommon (s : State) (dir : ℕ) (name : Bytes) (type : VnodeType) (link : Bytes) :
    Option State :=
  if hdir : (s.node dir).type = .dir then some (s.insert dir name type link hdir) else none

def State.createAny (s : State) (wild : Option ℕ) (path : Bytes) (root cwd : ℕ)
    (errIfPresent follow : Bool) (handler : CreateHandler) : Option (Except Errno ℕ × State) :=
  match resolveCreate s.view wild path root (some cwd) errIfPresent follow with
  | .done r => some (r, s)
  | .make dir name => (s.createCommon dir name handler.type []).map fun s' => (.ok s.next, s')

def State.remove (s : State) (p v : ℕ) : State where
  node u :=
    if u = p then { s.node p with
      entries := TailQueue.remove head (s.node p).entries (dirent v) }
    else s.node u
  next := s.next
  root := by
    split_ifs with h
    · exact h ▸ s.root
    · exact s.root
  parent u q h := by
    have hq : (s.node q).type = .dir := by
      split_ifs at h with hu
      · exact s.parent p q h
      · exact s.parent u q h
    split_ifs with hqp
    · exact hqp ▸ hq
    · exact hq
  unused u hu := by
    split_ifs with h
    · exact h ▸ s.unused u hu
    · exact s.unused u hu

def comFsTmpfsUnlink (s : State) (v : ℕ) (removedir : Bool) : Except Errno Unit × State :=
  if (s.node v).type = .dir ∧ removedir = false then (.error .EISDIR, s)
  else if (s.node v).type = .dir ∧ (s.node v).entries.first ≠ 0 then (.error .ENOTEMPTY, s)
  else
    match (s.node v).parent with
    | some p => (.ok (), s.remove p v)
    | none => (.ok (), s)

/-- A call, with the vnodes of `dir_fd` and of the root of the process and with what the unset
variable of the lookup holds. -/
inductive Event where
  | openat (wild : Option ℕ) (root dir : ℕ) (path : Bytes) (excl nofollow : Bool)
  | mkdirat (wild : Option ℕ) (root dir : ℕ) (path : Bytes)
  | symlinkat (path1 : Bytes) (dir : ℕ) (path2 : Bytes)
  | bind (wild : Option ℕ) (root cwd : ℕ) (path : Bytes)
  | unlinkat (wild : Option ℕ) (root dir : ℕ) (path : Bytes) (removedir : Bool)

def next (s : State) : Event → Option State
  | .openat wild root dir path excl nofollow =>
    (s.createAny wild path root dir excl (!nofollow) .create).map Prod.snd
  | .mkdirat wild root dir path => (s.createAny wild path root dir true false .mkdir).map Prod.snd
  | .symlinkat path1 dir path2 => s.createCommon dir path2 .link path1
  | .bind wild root cwd path => (s.createAny wild path root cwd true true .mksocket).map Prod.snd
  | .unlinkat wild root dir path removedir =>
    match (comFsVfsLookup s.view wild path root (some dir) false).1 with
    | .error _ => some s
    | .ok v => some (comFsTmpfsUnlink s v removedir).2

structure ValidName (name : Bytes) : Prop where
  nonempty : name ≠ []
  free : slash ∉ name
  ne_dot : name ≠ dot
  ne_dotdot : name ≠ dotdot

def Integrity (s : State) : Prop :=
  ∀ d, (s.node d).type = .dir →
    ((s.entries d).map Prod.fst).Nodup ∧ ∀ e ∈ s.entries d, ValidName e.1

structure Lists (s : State) (d : ℕ) (l : List ℕ) : Prop where
  queue : TailQueue.Represents head (s.node d).entries (l.map dirent)
  lt : ∀ v ∈ l, v < s.next

variable {s : State} {d dir v p : ℕ} {l : List ℕ} {name : Bytes} {type : VnodeType} {link : Bytes}

theorem dirent_injective : Function.Injective dirent := fun a b h => by
  unfold dirent at h
  omega

theorem dirent_node (hv : v ≠ 0) : TailQueue.Node head (dirent v) where
  aligned := ⟨v, rfl⟩
  pos := by
    unfold dirent
    omega
  ne_head := by
    unfold dirent head
    omega

theorem Lists.nodup (h : Lists s d l) : l.Nodup := Nodup.of_map dirent h.queue.nodup

theorem Lists.length_le (h : Lists s d l) : l.length ≤ s.next :=
  Spans.length_le_of_nodup h.nodup h.lt

theorem Lists.entries (h : Lists s d l) : s.entries d = l.map fun v => ((s.node v).name, v) := by
  have hln : (l.map dirent).length ≤ s.next := by simpa using h.length_le
  have hdv : ∀ v, dirent v / 16 = v := fun v => Nat.mul_div_cancel_left v (by decide)
  simp [State.entries, h.queue.elems_eq hln, hdv]

structure NamesOk (s : State) (l : List ℕ) : Prop where
  nodup : (l.map fun v => (s.node v).name).Nodup
  valid : ∀ v ∈ l, ValidName (s.node v).name

def Good (s : State) : Prop := ∀ d, ∃ l, Lists s d l ∧ NamesOk s l

theorem integrity_of_namesOk (h : Lists s d l) : NamesOk s l ↔
    ((s.entries d).map Prod.fst).Nodup ∧ ∀ e ∈ s.entries d, ValidName e.1 := by
  rw [h.entries, map_map]
  refine ⟨fun hl => ⟨hl.nodup, fun e he => ?_⟩, fun hl => ⟨hl.1, fun v hv => ?_⟩⟩
  · obtain ⟨v, hv, rfl⟩ := mem_map.mp he
    exact hl.valid v hv
  · exact hl.2 _ (mem_map_of_mem hv)

theorem Good.integrity (h : Good s) : Integrity s := by
  intro d _
  obtain ⟨l, hls, hl⟩ := h d
  exact (integrity_of_namesOk hls).mp hl

theorem namesOk_nil (s : State) : NamesOk s [] := ⟨nodup_nil, by simp⟩

theorem lists_nil (h : (s.node d).entries = emptyQueue) : Lists s d [] :=
  ⟨h ▸ TailQueue.Represents.init head _, by simp⟩

theorem good_mount : Good comFsTmpfsMount := by
  intro d
  refine ⟨[], lists_nil ?_, namesOk_nil _⟩
  unfold comFsTmpfsMount
  dsimp only
  split_ifs <;> rfl

section

variable {hdir : (s.node dir).type = .dir}

theorem insert_name_old (hv : v < s.next) :
    ((s.insert dir name type link hdir).node v).name = (s.node v).name := by
  simp only [State.insert, if_neg hv.ne]
  split_ifs with h
  · rw [h]
  · rfl

theorem insert_name_new : ((s.insert dir name type link hdir).node s.next).name = name := by
  simp [State.insert, (State.lt_next hdir).ne']

theorem map_insert_name_old (hl : ∀ v ∈ l, v < s.next) :
    (l.map fun v => ((s.insert dir name type link hdir).node v).name) =
      l.map fun v => (s.node v).name :=
  map_congr_left fun v hv => insert_name_old (hl v hv)

theorem Lists.insert (h : Lists s dir l) :
    Lists (s.insert dir name type link hdir) dir (l ++ [s.next]) where
  queue := by
    have hnt : dirent s.next ∉ l.map dirent := fun hme => by
      obtain ⟨v, hv, heq⟩ := mem_map.mp hme
      exact (h.lt v hv).ne (dirent_injective heq)
    have hqu := h.queue.insertTail (dirent_node (Nat.ne_zero_of_lt (State.lt_next hdir))) hnt
    simpa [State.insert] using hqu
  lt v hv := by
    rcases mem_append.mp hv with hv | hv
    · exact (h.lt v hv).trans (Nat.lt_succ_self _)
    · rw [mem_singleton.mp hv]
      exact Nat.lt_succ_self _

theorem Lists.insert_ne (h : Lists s d l) (hdd : d ≠ dir) (hdn : d ≠ s.next) :
    Lists (s.insert dir name type link hdir) d l where
  queue := by simpa [State.insert, hdd, hdn] using h.queue
  lt v hv := (h.lt v hv).trans (Nat.lt_succ_self _)

theorem lists_insert_new : Lists (s.insert dir name type link hdir) s.next [] :=
  lists_nil (by simp [State.insert, (State.lt_next hdir).ne'])

theorem namesOk_insert_old (hl : ∀ v ∈ l, v < s.next) :
    NamesOk (s.insert dir name type link hdir) l ↔ NamesOk s l := by
  refine ⟨fun h => ⟨?_, fun v hv => ?_⟩, fun h => ⟨?_, fun v hv => ?_⟩⟩
  · exact map_insert_name_old hl ▸ h.nodup
  · exact insert_name_old (hl v hv) ▸ h.valid v hv
  · rw [map_insert_name_old hl]
    exact h.nodup
  · rw [insert_name_old (hl v hv)]
    exact h.valid v hv

theorem namesOk_insert (h : Lists s dir l) :
    NamesOk (s.insert dir name type link hdir) (l ++ [s.next]) ↔
      NamesOk s l ∧ ValidName name ∧ Missing s.view dir name := by
  have hms : Missing s.view dir name ↔ name ∉ l.map fun v => (s.node v).name := by
    change (s.entries dir).find? (fun e => decide (e.1 = name)) = none ↔ _
    rw [h.entries, List.find?_eq_none]
    simp
  have hold : NamesOk (s.insert dir name type link hdir) l ↔ NamesOk s l := namesOk_insert_old h.lt
  have hmp : (l.map fun v => ((s.insert dir name type link hdir).node v).name) =
      l.map fun v => (s.node v).name := map_insert_name_old h.lt
  rw [← hold, hms, ← hmp]
  constructor
  · rintro ⟨hnd, hvl⟩
    rw [map_append, map_singleton, insert_name_new] at hnd
    obtain ⟨hl, -, hne⟩ := nodup_append.mp hnd
    refine ⟨⟨hl, fun v hv => hvl v (mem_append_left _ hv)⟩, ?_, fun hme => ?_⟩
    · simpa only [insert_name_new] using hvl s.next (by simp)
    · exact hne name hme name (mem_singleton_self name) rfl
  · rintro ⟨hl, hnm, hnt⟩
    refine ⟨?_, fun v hv => ?_⟩
    · rw [map_append, map_singleton, insert_name_new]
      refine nodup_append.mpr ⟨hl.nodup, nodup_singleton _, fun n hn n' hn' heq => ?_⟩
      rw [mem_singleton.mp hn'] at heq
      exact hnt (heq ▸ hn)
    · rcases mem_append.mp hv with hv | hv
      · exact hl.valid v hv
      · rw [mem_singleton.mp hv, insert_name_new]
        exact hnm

theorem Good.insert (h : Good s) (hnm : ValidName name) (hms : Missing s.view dir name) :
    Good (s.insert dir name type link hdir) := by
  intro d
  by_cases hdd : d = dir
  · subst hdd
    obtain ⟨l, hls, hl⟩ := h d
    exact ⟨_, hls.insert, (namesOk_insert hls).mpr ⟨hl, hnm, hms⟩⟩
  · by_cases hdn : d = s.next
    · exact ⟨[], hdn ▸ lists_insert_new, namesOk_nil _⟩
    · obtain ⟨l, hls, hl⟩ := h d
      exact ⟨l, hls.insert_ne hdd hdn, (namesOk_insert_old hls.lt).mpr hl⟩

theorem Good.integrity_insert (h : Good s) :
    Integrity (s.insert dir name type link hdir) ↔ ValidName name ∧ Missing s.view dir name := by
  refine ⟨fun hin => ?_, fun hok => (h.insert hok.1 hok.2).integrity⟩
  obtain ⟨l, hls, -⟩ := h dir
  have hdir' : ((s.insert dir name type link hdir).node dir).type = .dir := by
    simpa [State.insert] using hdir
  exact ((namesOk_insert hls).mp ((integrity_of_namesOk hls.insert).mpr (hin dir hdir'))).2

end

theorem remove_name (u : ℕ) : ((s.remove p v).node u).name = (s.node u).name := by
  simp only [State.remove]
  split_ifs with h
  · rw [h]
  · rfl

theorem Good.remove (h : Good s) (hv : v ∈ (s.entries p).map Prod.snd) : Good (s.remove p v) := by
  have hns : ∀ l, NamesOk s l → NamesOk (s.remove p v) l := fun l hl =>
    ⟨by simpa only [remove_name] using hl.nodup, by simpa only [remove_name] using hl.valid⟩
  intro d
  obtain ⟨l, hls, hl⟩ := h d
  by_cases hdp : d = p
  · subst hdp
    rw [hls.entries] at hv
    obtain ⟨pre, post, rfl⟩ := append_of_mem (show v ∈ l by simpa using hv)
    have hsb : (pre ++ post).Sublist (pre ++ v :: post) :=
      List.Sublist.append_left (sublist_cons_self v post) pre
    refine ⟨pre ++ post, ⟨?_, fun u hu => hls.lt u (hsb.subset hu)⟩,
      hns _ ⟨hl.nodup.sublist (hsb.map _), fun u hu => hl.valid u (hsb.subset hu)⟩⟩
    have hqu := hls.queue
    rw [map_append, map_cons] at hqu
    simpa [State.remove] using hqu.remove
  · refine ⟨l, ⟨?_, hls.lt⟩, hns l hl⟩
    simpa [State.remove, hdp] using hls.queue

variable {wild : Option ℕ} {path : Bytes} {cwd root : ℕ} {errIfPresent follow : Bool}

theorem resolveCreate_validName {t : Tree} (hrt : (t.node root).type = .dir)
    (hcw : (t.node cwd).type ≠ .link) (hdir : (t.node dir).type = .dir)
    (h : resolveCreate t wild path root (some cwd) errIfPresent follow = .make dir name) :
    ValidName name := by
  have hrt' : (t.node root).type ≠ .link := by simp [hrt]
  obtain ⟨hfl, hpn, rfl⟩ := resolveCreate_make h
  have hcm := components_ne_nil wild hrt' hcw hfl
  obtain ⟨-, -, hfr, hne, -⟩ := penult_spec hcm
  simp only [ne_eq, lookup_ok_iff wild hrt' hcw] at hfl
  have hno := Option.eq_none_iff_forall_ne_some.mpr hfl
  rw [lookup_ok_iff wild hrt' hcw] at hpn
  -- the last component is looked up in `dir`, or in the root
  have hdt : (kstrpathpenult path).2 ≠ dot ∧ (kstrpathpenult path).2 ≠ dotdot := by
    rw [components_penult hcm] at hno
    obtain hsm | ⟨-, hst, hnl⟩ := start_penult root cwd hcm
    · rw [hsm] at hpn
      obtain ⟨root', hrt''⟩ := rounds_append hpn
      rw [hrt'' _ _ (.inl (cons_ne_nil _ _))] at hno
      exact ne_dots_of_rounds hdir hno
    · rw [hnl, nil_append, hst] at hno
      exact ne_dots_of_rounds hrt hno
  exact ⟨hne, hfr, hdt.1, hdt.2⟩

/-- A creation under a path: the process has a directory as its root, looks up from what is not a
link, and what is created is missing in the directory it is created in. -/
def CreateOk (s : State) (wild : Option ℕ) (path : Bytes) (root cwd : ℕ)
    (errIfPresent follow : Bool) : Prop :=
  (s.node root).type = .dir ∧ (s.node cwd).type ≠ .link ∧
    ∀ dir name, resolveCreate s.view wild path root (some cwd) errIfPresent follow =
      .make dir name → Missing s.view dir name

/-- The condition on a call in a state. -/
def Careful (s : State) : Event → Prop
  | .openat wild root dir path excl nofollow => CreateOk s wild path root dir excl (!nofollow)
  | .mkdirat wild root dir path => CreateOk s wild path root dir true false
  | .symlinkat _ dir path2 => ValidName path2 ∧ Missing s.view dir path2
  | .bind wild root cwd path => CreateOk s wild path root cwd true true
  | .unlinkat wild root dir path _ =>
    ∀ v p, (comFsVfsLookup s.view wild path root (some dir) false).1 = .ok v →
      (s.node v).parent = some p → v ∈ (s.entries p).map Prod.snd

variable {s' : State}

theorem Good.createCommon (h : Good s) (hnm : ValidName name)
    (hms : Missing s.view dir name) (hs : s.createCommon dir name type link = some s') :
    Good s' := by
  unfold State.createCommon at hs
  split at hs
  · cases hs
    exact h.insert hnm hms
  · cases hs

theorem Good.createAny {handler : CreateHandler} (h : Good s)
    (hok : CreateOk s wild path root cwd errIfPresent follow)
    (hs : (s.createAny wild path root cwd errIfPresent follow handler).map Prod.snd = some s') :
    Good s' := by
  obtain ⟨hrt, hcw, hms⟩ := hok
  unfold State.createAny at hs
  cases hrs : resolveCreate s.view wild path root (some cwd) errIfPresent follow with
  | done r =>
    rw [hrs] at hs
    cases hs
    exact h
  | make dir name =>
    simp only [hrs, Option.map_map, Option.map_eq_some_iff] at hs
    obtain ⟨s₁, hs₁, rfl⟩ := hs
    have hdir : (s.node dir).type = .dir := by
      by_contra hdir
      simp [State.createCommon, hdir] at hs₁
    exact h.createCommon (resolveCreate_validName (t := s.view) hrt hcw hdir hrs)
      (hms dir name hrs) hs₁

theorem Good.unlink {removedir : Bool} (h : Good s)
    (hv : ∀ p, (s.node v).parent = some p → v ∈ (s.entries p).map Prod.snd) :
    Good (comFsTmpfsUnlink s v removedir).2 := by
  unfold comFsTmpfsUnlink
  split_ifs
  · exact h
  · exact h
  · cases hpr : (s.node v).parent with
    | none => exact h
    | some p => exact h.remove (hv p hpr)

theorem Good.next {e : Event} {s' : State} (h : Good s) (hok : Careful s e)
    (hs : next s e = some s') : Good s' := by
  cases e with
  | openat wild root dir path excl nofollow | mkdirat wild root dir path
  | bind wild root cwd path => exact h.createAny hok hs
  | symlinkat path1 dir path2 => exact h.createCommon hok.1 hok.2 hs
  | unlinkat wild root dir path removedir =>
    simp only [TmpfsDirectories.next] at hs
    cases hlu : (comFsVfsLookup s.view wild path root (some dir) false).1 with
    | error e =>
      rw [hlu] at hs
      cases hs
      exact h
    | ok v =>
      rw [hlu] at hs
      cases hs
      exact h.unlink fun p hp => hok v p hlu hp

/-- Calls that meet the condition keep every directory intact; an entry that is made under another
name breaks it. -/
theorem directory_integrity (s : State) (h : Reaches next Careful comFsTmpfsMount s) :
    Integrity s ∧ ∀ dir name type link hdir,
      Integrity (s.insert dir name type link hdir) ↔ ValidName name ∧ Missing s.view dir name := by
  have hgd := h.invariant Good good_mount fun _ _ _ hgd hok hn => hgd.next hok hn
  exact ⟨hgd.integrity, fun _ _ _ _ _ => hgd.integrity_insert⟩

def madeDir : State := comFsTmpfsMount.insert 0 [97] .dir [] rfl

def madeLink : State := madeDir.insert 1 [108] .link [97] rfl

theorem directory_integrity_linked :
    Reaches next Careful comFsTmpfsMount (madeLink.remove 1 2) ∧ Integrity (madeLink.remove 1 2) := by
  have hmk : Careful comFsTmpfsMount (.mkdirat none 0 0 [97]) := by
    refine ⟨rfl, by decide, fun dir name h => ?_⟩
    cases h
    rfl
  have hsy : Careful madeDir (.symlinkat [97] 1 [108]) :=
    ⟨⟨by decide, by decide, by decide, by decide⟩, rfl⟩
  have hun : Careful madeLink (.unlinkat none 0 0 [97, 47, 108] false) := by
    intro v p hv hp
    cases hv
    cases hp
    decide
  have hrc : Reaches next Careful comFsTmpfsMount (madeLink.remove 1 2) :=
    .step (.step (.step .start hmk (show _ = some madeDir from rfl)) hsy
      (show _ = some madeLink from rfl)) hun rfl
  exact ⟨hrc, (directory_integrity _ hrc).1⟩

def linkedTwice : List Event := [.symlinkat [97] 0 [97, 47], .symlinkat [97] 0 [97, 47]]

def linkedNowhere : List Event := [.symlinkat [110] 0 [108], .openat none 0 0 [108] false false]

/-- Of the directories `x`, `y` and `z`, `x` and `y` are removed and `y` is made again; then `x` is
removed a second time by a process in it. -/
def removedTwice : List Event :=
  [.mkdirat none 0 0 [120], .mkdirat none 0 0 [121], .mkdirat none 0 0 [122],
    .unlinkat none 0 0 [120] true, .unlinkat none 0 0 [121] true, .mkdirat none 0 0 [121],
    .unlinkat none 0 1 [46] true]

theorem not_integrity_of_run (calls : List Event) {entries : List (Bytes × ℕ)}
    (h : (run next (fun _ _ => True) comFsTmpfsMount calls).map (fun s => s.entries 0) = some entries)
    (hdu : ¬ (entries.map Prod.fst).Nodup) :
    ∃ s, Reaches next (fun _ _ => True) comFsTmpfsMount s ∧ s.entries 0 = entries ∧
      ¬ Integrity s := by
  obtain ⟨s, hs, rfl⟩ := Option.map_eq_some_iff.mp h
  exact ⟨s, run_reaches hs, rfl, fun hi => hdu (hi 0 s.root).1⟩

/-- The root ends up with two entries of one name, once with a slash in it. -/
theorem integrity_broken : (∃ s, Reaches next (fun _ _ => True) comFsTmpfsMount s ∧
      s.entries 0 = [([97, 47], 1), ([97, 47], 2)] ∧ ¬ Integrity s) ∧
    (∃ s, Reaches next (fun _ _ => True) comFsTmpfsMount s ∧
      s.entries 0 = [([108], 1), ([108], 2)] ∧ ¬ Integrity s) ∧
    ∃ s, Reaches next (fun _ _ => True) comFsTmpfsMount s ∧
      s.entries 0 = [([121], 2), ([122], 3), ([121], 4)] ∧ ¬ Integrity s :=
  ⟨not_integrity_of_run linkedTwice rfl (by decide),
    not_integrity_of_run linkedNowhere rfl (by decide),
    not_integrity_of_run removedTwice rfl (by decide)⟩

end TmpfsDirectories
