import SalernosKernel.PathResolution
import SalernosKernel.Vfs

/-! # Lookup as a fold over components

`vfs_lookup1` walks the components of a path up to the first link. -/
namespace VfsLookup

open Vfs PathResolution List

def top (t : Tree) (v : ℕ) : ℕ := exhaust t.above t.numVfs v

def bottom (t : Tree) (v : ℕ) : ℕ := exhaust t.over t.numVfs v

def child (t : Tree) (dir : ℕ) (name : Bytes) : Except Errno ℕ :=
  if name = dotdot then .ok ((t.node dir).parent.getD dir)
  else
    match (t.node dir).entries.find? (·.1 = name) with
    | some entry => .ok entry.2
    | none => .error .ENOENT

def lookupDir (t : Tree) (v : ℕ) (name : Bytes) : ℕ := if name = dotdot then top t v else v

def step (t : Tree) (v : ℕ) (name : Bytes) : Except Errno ℕ :=
  if name = dot then .ok v
  else if (t.node (lookupDir t v name)).type ≠ .dir then .error .ENOTDIR
  else (child t (lookupDir t v name) name).map (bottom t)

variable {t : Tree} {v w : ℕ} {name path : Bytes} {dir r root : ℕ}

theorem over_gt (h : t.over v = some r) : (t.node v).vfs < (t.node r).vfs := by
  obtain ⟨f, hf, rfl⟩ := Option.map_eq_some_iff.mp h
  obtain ⟨hlt, hbd, -⟩ := t.mounted v f hf
  rwa [(t.root f hbd).1]

theorem over_bottom (t : Tree) (v : ℕ) : t.over (bottom t v) = none := by
  refine exhaust_end (fun v => t.numVfs - (t.node v).vfs) (fun v r hr => ?_) (Nat.sub_le _ _)
  have hlt := over_gt hr
  have hbd := t.bound r
  omega

/-- The loop over the mounts above a vnode ends where nothing is above. -/
theorem above_top (t : Tree) (v : ℕ) : t.above (top t v) = none := by
  refine exhaust_end (fun v => (t.node v).vfs) (fun v m hm => ?_) (t.bound v).le
  obtain ⟨-, hmountpoint⟩ := Option.ite_none_right_eq_some.mp hm
  exact (t.mountpoint _ m hmountpoint).1

theorem climb_fst (t : Tree) (fuel v : ℕ) : (climb t fuel v).1 = exhaust t.above fuel v := by
  induction fuel generalizing v with
  | zero => rfl
  | succ fuel ih =>
    simp only [climb, exhaust]
    cases t.above v with
    | none => rfl
    | some m => exact ih m

theorem descend_fst_snd (t : Tree) (fuel dir v : ℕ) :
    (descend t fuel dir v).1.2 = exhaust t.over fuel v := by
  induction fuel generalizing dir v with
  | zero => rfl
  | succ fuel ih =>
    simp only [descend, exhaust]
    cases t.over v with
    | none => rfl
    | some r => exact ih v r

theorem tmpfsLookup_fst (t : Tree) (dir : ℕ) (name : Bytes) :
    (comFsTmpfsLookup t dir name).1 = child t dir name := by
  unfold comFsTmpfsLookup child
  split
  · cases (t.node dir).parent <;> rfl
  · cases (t.node dir).entries.find? _ <;> rfl

theorem numVfs_succ (t : Tree) : ∃ n, t.numVfs = n + 1 :=
  Nat.exists_eq_succ_of_ne_zero (Nat.ne_zero_of_lt (t.bound 0))

theorem lookupStart_fst (t : Tree) (v : ℕ) (name : Bytes) :
    (if name = dotdot then climb t t.numVfs v else (v, [])).1 = lookupDir t v name := by
  unfold lookupDir top
  split
  · exact climb_fst t _ v
  · rfl

theorem lookupComponent_eq (t : Tree) (v : ℕ) (name : Bytes) : (lookupComponent t v name).1 =
      if (t.node (lookupDir t v name)).type ≠ .dir then .error .ENOTDIR
      else (child t (lookupDir t v name) name).map fun w =>
        (descend t t.numVfs (lookupDir t v name) w).1 := by
  simp only [lookupComponent, lookupStart_fst]
  by_cases hdi : (t.node (lookupDir t v name)).type ≠ .dir
  · rw [if_pos hdi, if_pos hdi]
  · rw [if_neg hdi, if_neg hdi, ← tmpfsLookup_fst]
    cases comFsTmpfsLookup t (lookupDir t v name) name with
    | mk result ops => cases result <;> rfl

theorem lookupComponent_fst (hnm : name ≠ dot) (t : Tree) (v : ℕ) :
    (lookupComponent t v name).1.map Prod.snd = step t v name := by
  rw [lookupComponent_eq, step, if_neg hnm]
  split_ifs
  · rfl
  · cases child t (lookupDir t v name) name with
    | error e => rfl
    | ok w => exact congrArg Except.ok (descend_fst_snd t _ _ w)

theorem over_type (h : t.over v = some r) : (t.node r).type = .dir := by
  obtain ⟨f, hf, rfl⟩ := Option.map_eq_some_iff.mp h
  exact (t.root f (t.mounted v f hf).2.1).2

theorem exhaust_over_type (hv : (t.node v).type = .dir) (fuel : ℕ) :
    (t.node (exhaust t.over fuel v)).type = .dir :=
  exhaust_invariant (fun v => (t.node v).type = .dir) (fun _ _ _ => over_type) fuel hv

theorem over_none_of_bottom (h : (t.node (bottom t v)).type ≠ .dir) : t.over v = none := by
  cases hov : t.over v with
  | none => rfl
  | some r =>
    obtain ⟨n, hn⟩ := numVfs_succ t
    refine absurd ?_ h
    rw [bottom, hn, exhaust, hov]
    exact exhaust_over_type (over_type hov) n

theorem descend_of_none (hov : t.over v = none) (fuel : ℕ) :
    descend t fuel dir v = ((dir, v), []) := by
  cases fuel <;> simp [descend, hov]

theorem lookupComponent_link (h : (lookupComponent t v name).1 = .ok (dir, w))
    (hw : (t.node w).type = .link) :
    dir = lookupDir t v name ∧ (t.node dir).type = .dir ∧ child t dir name = .ok w := by
  rw [lookupComponent_eq] at h
  split at h
  · cases h
  · next hdi =>
    cases hfn : child t (lookupDir t v name) name with
    | error e =>
      rw [hfn] at h
      cases h
    | ok x =>
      rw [hfn] at h
      have hpr : (descend t t.numVfs (lookupDir t v name) x).1 = (dir, w) := Except.ok.inj h
      have hbt : bottom t x = w := by
        rw [bottom, ← descend_fst_snd t _ (lookupDir t v name) x, hpr]
      have hov : t.over x = none := over_none_of_bottom (by simp [hbt, hw])
      rw [descend_of_none hov, Prod.mk.injEq] at hpr
      obtain ⟨rfl, rfl⟩ := hpr
      exact ⟨rfl, not_not.mp hdi, hfn⟩

inductive Walk where
  | done (v : ℕ)
  | link (dir w : ℕ) (rest : List Bytes)
  deriving DecidableEq

def walk (t : Tree) (v : ℕ) : List Bytes → Except Errno Walk
  | [] => .ok (.done v)
  | name :: names =>
    if name = dot then walk t v names
    else
      match (lookupComponent t v name).1 with
      | .error e => .error e
      | .ok (dir, w) =>
        if (t.node w).type = .link then .ok (.link dir w names) else walk t w names

theorem walk_done_type {x : ℕ} {names : List Bytes} (hv : (t.node v).type ≠ .link)
    (h : walk t v names = .ok (.done x)) : (t.node x).type ≠ .link := by
  induction names generalizing v with
  | nil =>
    cases h
    exact hv
  | cons name names ih =>
    rw [walk] at h
    split at h
    · exact ih hv h
    · split at h
      · cases h
      · split at h
        · cases h
        · next hlk => exact ih hlk h

def walkOps (t : Tree) (v : ℕ) : List Bytes → List RefOp
  | [] => []
  | name :: names =>
    if name = dot then walkOps t v names
    else
      match lookupComponent t v name with
      | (.error _, ops) => ops
      | (.ok (_, w), ops) =>
        if (t.node w).type = .link then ops else ops ++ walkOps t w names

/-- The same end; the rest of the path is given as bytes. -/
inductive SameEnd : Except Errno Hit → Except Errno Walk → Prop where
  | error (e : Errno) : SameEnd (.error e) (.error e)
  | done (v : ℕ) : SameEnd (.ok ⟨v, none, none⟩) (.ok (.done v))
  | last (dir w : ℕ) : SameEnd (.ok ⟨w, some dir, none⟩) (.ok (.link dir w []))
  | link (dir w : ℕ) (rest : Bytes) :
      SameEnd (.ok ⟨w, some dir, some (slash :: rest)⟩) (.ok (.link dir w (components slash rest)))

structure Leftover (path : Bytes) (hit : Hit) : Prop where
  shorter : ∀ rest, hit.subpath = some rest → rest.length < path.length
  suffix : ∀ rest, hit.subpath = some rest → rest <:+ path
  /-- A link with nothing left after it is the end of the path. -/
  last : hit.dir.isSome → hit.subpath = none → ∃ c, path.getLast? = some c ∧ c ≠ slash

theorem leftover_done (path : Bytes) (v : ℕ) : Leftover path ⟨v, none, none⟩ :=
  ⟨fun _ h => (Option.some_ne_none _ h.symm).elim, fun _ h => (Option.some_ne_none _ h.symm).elim,
    fun h => by simp at h⟩

variable {rest : Bytes} {hit : Hit}

theorem Leftover.of_suffix (h : Leftover rest hit) (hsf : rest <:+ path) : Leftover path hit where
  shorter r hr := (h.shorter r hr).trans_le hsf.length_le
  suffix r hr := (h.suffix r hr).trans hsf
  last hdi hsb := by
    obtain ⟨c, hc, hne⟩ := h.last hdi hsb
    obtain ⟨before, rfl⟩ := hsf
    exact ⟨c, by simp [List.getLast?_append, hc], hne⟩

theorem leftover_link {name : Bytes} (hnm : name ≠ []) (hfr : slash ∉ name) (w dir : ℕ) :
    Leftover (name ++ rest) ⟨w, some dir, if rest = [] then none else some rest⟩ where
  shorter r hr := by
    have hps := length_pos_iff.mpr hnm
    by_cases hnl : rest = []
    · simp [hnl] at hr
    · simp only [hnl, if_false, Option.some.injEq] at hr
      simp only [← hr, length_append]
      omega
  suffix r hr := by
    by_cases hnl : rest = []
    · simp [hnl] at hr
    · simp only [hnl, if_false, Option.some.injEq] at hr
      exact hr ▸ suffix_append name rest
  last _ hsb := by
    have hnl : rest = [] := by
      by_contra hne
      simp [hne] at hsb
    refine ⟨name.getLast hnm, by simp [hnl, List.getLast?_eq_getLast_of_ne_nil hnm], fun hls => ?_⟩
    exact hfr (hls ▸ getLast_mem hnm)

theorem lookupLoop_walk (t : Tree) {fuel : ℕ} (h : path.length ≤ fuel) (v : ℕ) :
    SameEnd (lookupLoop t fuel path v).1 (walk t v (components slash path)) ∧
      (lookupLoop t fuel path v).2 = walkOps t v (components slash path) ∧
      ∀ hit, (lookupLoop t fuel path v).1 = .ok hit → Leftover path hit := by
  induction fuel generalizing path v with
  | zero =>
    obtain rfl := length_eq_zero_iff.mp (Nat.le_zero.mp h)
    exact ⟨.done v, rfl, fun hit hht => by cases hht; exact leftover_done [] v⟩
  | succ fuel ih =>
    rw [← components_dropWhile path]
    have hsf := dropWhile_suffix (fun c => decide (c = slash)) (l := path)
    have hsa := List.head?_dropWhile_not (fun c => decide (c = slash)) path
    rw [lookupLoop]
    generalize path.dropWhile (fun c => decide (c = slash)) = left at hsf hsa ⊢
    have hsh := hsf.length_le
    cases left with
    | nil => exact ⟨.done v, rfl, fun hit hht => by cases hht; exact leftover_done path v⟩
    | cons c left =>
      have hc : c ≠ slash := by simpa using hsa
      have hnm : (c :: left).takeWhile (· ≠ slash) ≠ [] := by simp [hc]
      have hfr : slash ∉ (c :: left).takeWhile (· ≠ slash) := fun hme => by
        simpa using mem_takeWhile_imp hme
      have hsp := takeWhile_append_dropWhile
        (p := fun c => decide (c ≠ slash)) (l := c :: left)
      have hln := congrArg List.length hsp
      have hrs := List.head?_dropWhile_not (fun c => decide (c ≠ slash)) (c :: left)
      rw [components_cons hc]
      simp only [length_append] at hln
      simp only [reduceCtorEq, if_false]
      generalize (c :: left).takeWhile (fun c => decide (c ≠ slash)) = name at *
      generalize (c :: left).dropWhile (fun c => decide (c ≠ slash)) = rest at *
      have hdr : components slash (rest.drop 1) = components slash rest := by
        cases rest with
        | nil => rfl
        | cons d rest =>
          have hd : d = slash := by simpa using hrs
          simp [hd]
      have hfl : (rest.drop 1).length ≤ fuel := by
        simp only [length_drop]
        omega
      have hed : rest.drop 1 <:+ path :=
        (drop_suffix 1 rest).trans ((hsp ▸ suffix_append name rest).trans hsf)
      simp only [walk, walkOps]
      split
      · rw [← hdr]
        obtain ⟨hsm, hop, hlf⟩ := ih hfl v
        exact ⟨hsm, hop, fun hit hht => (hlf hit hht).of_suffix hed⟩
      · cases lookupComponent t v name with
        | mk result ops =>
        cases result with
        | error e => exact ⟨.error e, rfl, fun hit hht => by cases hht⟩
        | ok r =>
          obtain ⟨dir, w⟩ := r
          dsimp only
          split
          · refine ⟨?_, rfl, fun hit hht => ?_⟩
            · cases rest with
              | nil => exact .last dir w
              | cons d rest =>
                have hd : d = slash := by simpa using hrs
                subst hd
                simpa using SameEnd.link dir w rest
            · cases hht
              exact (hsp ▸ leftover_link hnm hfr w dir).of_suffix hsf
          · rw [← hdr]
            obtain ⟨hsm, hop, hlf⟩ := ih hfl w
            exact ⟨hsm, congrArg _ hop, fun hit hht => (hlf hit hht).of_suffix hed⟩

def start (path : Bytes) (root cwd : ℕ) : ℕ := if path.head? = some slash then root else cwd

theorem lookupFrom_walk (t : Tree) (path : Bytes) (v : ℕ) :
    SameEnd (lookupFrom t path v).1 (walk t v (components slash path)) ∧
      (lookupFrom t path v).2 = .hold v :: walkOps t v (components slash path) :=
  have hlp := lookupLoop_walk t (le_refl path.length) v
  ⟨hlp.1, congrArg _ hlp.2.1⟩

theorem start_append_left {p : Bytes} (hp : p ≠ []) (q : Bytes) (root cwd : ℕ) :
    start (p ++ q) root cwd = start p root cwd := by
  cases p with
  | nil => exact absurd rfl hp
  | cons c p => rfl

def startOf (path : Bytes) (root : ℕ) (cwd : Option ℕ) : Option ℕ :=
  if path.head? = some slash then some root else cwd

theorem startOf_some (path : Bytes) (root cwd : ℕ) :
    startOf path root (some cwd) = some (start path root cwd) := by
  unfold startOf start
  split <;> rfl

variable {cwd : Option ℕ}

theorem vfsLookup1_eq (h : startOf path root cwd = some v) :
    ∃ rest, components slash rest = components slash path ∧
      vfsLookup1 t path root cwd = lookupFrom t rest v := by
  unfold startOf at h
  unfold vfsLookup1
  split at h
  · next hsl =>
    cases h
    obtain ⟨rest, rfl⟩ := List.head?_eq_some_iff.mp hsl
    exact ⟨rest, by simp, rfl⟩
  · next hsl => exact ⟨path, rfl, by simp [hsl, h]⟩

theorem vfsLookup1_leftover (h : (vfsLookup1 t path root cwd).1 = .ok hit) : Leftover path hit := by
  unfold vfsLookup1 at h
  split at h
  · exact ((lookupLoop_walk t (le_refl path.tail.length) root).2.2 hit h).of_suffix
      (tail_suffix path)
  · split at h
    · cases h
    · exact (lookupLoop_walk t (le_refl path.length) _).2.2 hit h

theorem vfsLookup1_sameEnd (t : Tree) (path : Bytes) (root cwd : ℕ) :
    SameEnd (vfsLookup1 t path root (some cwd)).1
      (walk t (start path root cwd) (components slash path)) := by
  obtain ⟨rest, hrs, heq⟩ := vfsLookup1_eq (startOf_some path root cwd)
  rw [heq, ← hrs]
  exact (lookupFrom_walk t rest _).1

section

variable {wild : Option ℕ} {n : Bytes} {root : ℕ} {cwd : ℕ} {follow : Bool}

theorem lookup_of_walk {path : Bytes} {x : ℕ}
    (h : walk t (start path root cwd) (components slash path) = .ok (.done x))
    (hx : (t.node x).type ≠ .link) :
    (comFsVfsLookup t wild path root (some cwd) follow).1 = .ok x := by
  have hed := vfsLookup1_sameEnd t path root cwd
  rw [h] at hed
  cases hht : vfsLookup1 t path root (some cwd) with
  | mk result ops =>
    rw [hht] at hed
    cases hed
    simp [comFsVfsLookup, lookupRounds, hht, hx]

theorem walk_cons_of_step {names : List Bytes} (hn : n ≠ dot) (hst : step t v n = .ok w)
    (hw : (t.node w).type ≠ .link) : walk t v (n :: names) = walk t w names := by
  have hcm := lookupComponent_fst hn t v
  rw [hst] at hcm
  rw [walk, if_neg hn]
  cases hr : (lookupComponent t v n).1 with
  | error e =>
    rw [hr] at hcm
    cases hcm
  | ok p =>
    rw [hr] at hcm
    obtain ⟨dir, x⟩ := p
    obtain rfl : x = w := Except.ok.inj hcm
    simp [hw]

theorem walk_append {l l' : List Bytes} (h : walk t v l = .ok (.done w)) :
    walk t v (l ++ l') = walk t w l' := by
  induction l generalizing v with
  | nil =>
    cases h
    rfl
  | cons n l ih =>
    rw [cons_append, walk]
    rw [walk] at h
    split at h
    · next hdo =>
      rw [if_pos hdo]
      exact ih h
    · next hdo =>
      rw [if_neg hdo]
      split at h
      · cases h
      · next dir x hcm =>
        split at h
        · cases h
        · next hty =>
          rw [if_neg hty]
          exact ih h

theorem bottom_of_none (h : t.over v = none) : bottom t v = v := exhaust_of_none h _

theorem find_of_nodup {l : List (Bytes × ℕ)} (hnd : (l.map Prod.fst).Nodup) (h : (n, w) ∈ l) :
    l.find? (·.1 = n) = some (n, w) := by
  induction l with
  | nil => cases h
  | cons e l ih =>
    rw [map_cons, nodup_cons] at hnd
    rcases mem_cons.mp h with rfl | hme
    · simp
    · have hne : e.1 ≠ n := fun he => hnd.1 (he ▸ mem_map_of_mem hme)
      rw [List.find?_cons_of_neg (by simpa using hne)]
      exact ih hnd.2 hme

theorem step_of_find (hdo : n ≠ dot) (hdt : n ≠ dotdot) (hv : (t.node v).type = .dir)
    (h : (t.node v).entries.find? (·.1 = n) = some (n, w)) : step t v n = .ok (bottom t w) := by
  rw [step, if_neg hdo, lookupDir, if_neg hdt, if_neg (not_not.mpr hv), child, if_neg hdt, h]
  rfl

end

def NoLinks (t : Tree) : Prop := ∀ v, (t.node v).type ≠ .link

theorem walk_of_noLinks (ht : NoLinks t) (v : ℕ) (names : List Bytes) :
    walk t v names = (resolve (step t) v names).map Walk.done := by
  induction names generalizing v with
  | nil => rfl
  | cons name names ih =>
    rw [walk, resolve_cons]
    split
    · next hdo =>
      rw [ih v]
      simp [step, hdo, Except.bind]
    · next hdo =>
      rw [← lookupComponent_fst hdo]
      cases (lookupComponent t v name).1 with
      | error e => rfl
      | ok r =>
        simp only [if_neg (ht r.2), ih]
        rfl

theorem lookup_fst_of_noLinks (ht : NoLinks t) (wild : Option ℕ) (path : Bytes) (root cwd : ℕ)
    (follow : Bool) :
    (comFsVfsLookup t wild path root (some cwd) follow).1 =
      resolve (step t) (start path root cwd) (components slash path) := by
  have hed := vfsLookup1_sameEnd t path root cwd
  rw [walk_of_noLinks ht] at hed
  unfold comFsVfsLookup lookupRounds
  generalize resolve (step t) (start path root cwd) (components slash path) = result at hed ⊢
  cases hlu : vfsLookup1 t path root (some cwd) with
  | mk found ops =>
  rw [hlu] at hed
  cases result with
  | error e =>
    cases hed with
    | error => rfl
  | ok v =>
    cases hed with
    | done => simp [ht v]

theorem start_append (l r : Bytes) (root cwd : ℕ) (s : Bytes) :
    start (l ++ slash :: s) root cwd = start (l ++ slash :: r) root cwd := by
  cases l <;> rfl

/-- `com_fs_vfs_lookup` where there are no links: a fold over the components, for which neither a
second `/` nor a `/./` in place of a `/` makes a difference. -/
theorem lookup_is_fold (t : Tree) (ht : NoLinks t) (wild : Option ℕ) (path : Bytes) (root cwd : ℕ)
    (follow : Bool) :
    (comFsVfsLookup t wild path root (some cwd) follow).1 =
        resolve (step t) (start path root cwd) (components slash path) ∧
      ∀ l r, path = l ++ slash :: r →
        (comFsVfsLookup t wild (l ++ slash :: slash :: r) root (some cwd) follow).1 =
            (comFsVfsLookup t wild path root (some cwd) follow).1 ∧
        (comFsVfsLookup t wild (l ++ slash :: (dot ++ slash :: r)) root (some cwd) follow).1 =
            (comFsVfsLookup t wild path root (some cwd) follow).1 := by
  refine ⟨lookup_fst_of_noLinks ht wild path root cwd follow, ?_⟩
  rintro l r rfl
  simp only [lookup_fst_of_noLinks ht, start_append l r]
  have hdo : components slash dot = [dot] := components_of_not_mem (by decide) (by decide)
  constructor
  · rw [components_append_sep, components_sep_cons, ← components_append_sep]
  · rw [components_append_sep, components_append_sep, components_append_sep, hdo, resolve_append,
      resolve_append]
    refine congrArg _ (funext fun w => ?_)
    rw [resolve_append, resolve_cons]
    simp [step, Except.bind]

/-- A file system with another one mounted on its directory 1. -/
def twoMounts (inRoot inDir : List (Bytes × ℕ)) (up : ℕ) : Tree where
  node v := match v with
    | 0 => ⟨.dir, 0, none, true, none, inRoot, []⟩
    | 1 => ⟨.dir, 0, some 1, false, some 0, inDir, []⟩
    | 2 => ⟨.dir, 1, none, true, none, [], []⟩
    | _ => ⟨.dir, 0, none, false, some up, [], []⟩
  vfs f := match f with
    | 0 => ⟨none, 0⟩
    | 1 => ⟨some 1, 2⟩
    | _ => ⟨none, 0⟩
  numVfs := 2
  mounted v f h := by
    rcases v with _ | _ | _ | v <;> simp at h
    subst h
    exact ⟨Nat.one_pos, by decide, rfl⟩
  root f h := by
    rcases f with _ | _ | f
    · exact ⟨rfl, rfl⟩
    · exact ⟨rfl, rfl⟩
    · omega
  mountpoint f v h := by
    rcases f with _ | _ | f <;> simp at h
    subst h
    exact ⟨Nat.one_pos, rfl⟩
  parent _ p _ := by
    rcases p with _ | _ | _ | p <;> rfl
  bound v := by
    rcases v with _ | _ | _ | v <;> simp

/-- The directory `b` was made in `a` before the mount. -/
def shadowed : Tree := twoMounts [([97], 1)] [([98], 3)] 1

theorem shadowed_noLinks : NoLinks shadowed := by
  intro v
  rcases v with _ | _ | _ | v <;> simp [shadowed, twoMounts]

theorem lookup_is_fold_mounted : NoLinks shadowed ∧
    (comFsVfsLookup shadowed none [47, 97, 47, 46, 46, 47, 97] 0 (some 0) true).1 = .ok 2 := by
  refine ⟨shadowed_noLinks, ?_⟩
  rw [(lookup_is_fold shadowed shadowed_noLinks none [47, 97, 47, 46, 46, 47, 97] 0 0 true).1]
  rfl

/-- A step in which the result of `..` is not looked through for mounts. -/
def stepToParent (t : Tree) (v : ℕ) (name : Bytes) : Except Errno ℕ :=
  if name = dotdot then
    if (t.node (top t v)).type ≠ .dir then .error .ENOTDIR
    else .ok ((t.node (top t v)).parent.getD (top t v))
  else step t v name

/-- From `b`, below the mount, `..` leads to the root of what is mounted on its parent. -/
theorem dotdot_descends : NoLinks shadowed ∧
    (comFsVfsLookup shadowed none dotdot 0 (some 3) true).1 = .ok 2 ∧
    resolve (stepToParent shadowed) (start dotdot 0 3) (components slash dotdot) = .ok 1 :=
  ⟨shadowed_noLinks, rfl, rfl⟩

end VfsLookup
