import SalernosKernel.ByteMemory
import SalernosKernel.VfsLookup

/-! # The path of the working directory

`com_sys_syscall_getcwd` puts the names of the directories above the working directory into the
buffer from its end. -/
namespace GetCwd

open ByteMemory PathResolution Vfs VfsLookup List
open BitVec (ofNat)

abbrev Ptr := BitVec 64

abbrev Mem := Ptr → UInt8

inductive Failure where
  | EOVERFLOW
  | lookup (e : Errno)
  deriving DecidableEq

def comFsTmpfsVnctl (dirent : ℕ → Option Bytes) (v : ℕ) : Bytes := (dirent v).getD []

section Model

variable (t : Tree) (dirent : ℕ → Option Bytes) (wild : Option ℕ) (root : ℕ) (buf : Ptr)

def index (i : ℤ) : Ptr := buf + BitVec.ofInt 64 i

def getcwdLoop : ℕ → Mem → ℤ → ℕ → Except Failure ℤ × Mem
  | 0, m, placeIdx, _ => (.ok placeIdx, m)
  | fuel + 1, m, placeIdx, currCwd =>
    let name := comFsTmpfsVnctl dirent currCwd
    let placeIdx := placeIdx - (name.length - 1)
    if placeIdx - 1 < 0 then (.error .EOVERFLOW, m)
    else
      let m := write m (index buf placeIdx) name
      let r := if m (index buf placeIdx) ≠ slash then
          (write m (index buf (placeIdx - 1)) [slash], placeIdx - 2)
        else (m, placeIdx - 1)
      if name.length = 0 then (.ok r.2, r.1)
      else
        match (comFsVfsLookup t wild dotdot root (some currCwd) true).1 with
        | .error e => (.error (.lookup e), r.1)
        | .ok parent => getcwdLoop fuel r.1 r.2 parent

def kmemmove (m : Mem) (dst src : Ptr) (n : ℕ) : Mem :=
  fun a => if (a - dst).toNat < n then m (src + (a - dst)) else m a

def comSysSyscallGetcwd (size : Ptr) (cwd : ℕ) (m : Mem) : Except Failure Unit × Mem :=
  if size.toNat < 1 then (.error .EOVERFLOW, m)
  else
    let m := write m (buf + (size - 1)) [0]
    match getcwdLoop t dirent wild root buf (size.toNat + 1) m (size.toInt - 2) cwd with
    | (.error e, m) => (.error e, m)
    | (.ok placeIdx, m) =>
      (.ok (), kmemmove m buf (index buf (placeIdx + 1)) (size.toInt - placeIdx - 1).toNat)

end Model

/-- The entries of directories and what vnodes say about their own entries agree. -/
structure Named (t : Tree) (dirent : ℕ → Option Bytes) : Prop where
  nodup : ∀ v, ((t.node v).entries.map Prod.fst).Nodup
  parent : ∀ v n w, (n, w) ∈ (t.node v).entries → (t.node w).parent = some v
  name : ∀ v n w, (n, w) ∈ (t.node v).entries → dirent w = some n
  inner : ∀ v n w, (n, w) ∈ (t.node v).entries → (t.node w).isroot = false
  vfs : ∀ v n w, (n, w) ∈ (t.node v).entries → (t.node w).vfs = (t.node v).vfs
  proper : ∀ v n w, (n, w) ∈ (t.node v).entries →
    n ≠ [] ∧ slash ∉ n ∧ 0 ∉ n ∧ n ≠ dot ∧ n ≠ dotdot
  root : ∀ f < t.numVfs, dirent (t.vfs f).root = none

inductive Reached (t : Tree) : List Bytes → List Bytes → ℕ → Prop where
  | root : Reached t [] [] (t.vfs 0).root
  | entry {names below : List Bytes} {v w : ℕ} {n : Bytes} (h : Reached t names below v)
      (hentry : (n, w) ∈ (t.node v).entries) (hdir : (t.node w).type = .dir)
      (hover : t.over w = none) : Reached t (names ++ [n]) (below ++ [n]) w
  | mount {names below : List Bytes} {v w r : ℕ} {n : Bytes} (h : Reached t names below v)
      (hentry : (n, w) ∈ (t.node v).entries) (hover : t.over w = some r) :
      Reached t (names ++ [n]) [] (bottom t w)

def render (names : List Bytes) : Bytes :=
  if names = [] then [slash] else names.flatMap (slash :: ·)

structure Inverts (t : Tree) (dirent : ℕ → Option Bytes) (wild : Option ℕ) (names : List Bytes)
    (cwd : ℕ) (buf size : Ptr) (m : Mem) : Prop where
  succeeds : (∃ u, (comSysSyscallGetcwd t dirent wild (t.vfs 0).root buf size cwd m).1 = .ok u) ↔
    (render names).length + 1 ≤ size.toNat
  path : ∀ u, (comSysSyscallGetcwd t dirent wild (t.vfs 0).root buf size cwd m).1 = .ok u →
    ∃ path : Bytes, path.head? = some slash ∧ 0 ∉ path ∧ path.length < size.toNat ∧
      Holds (comSysSyscallGetcwd t dirent wild (t.vfs 0).root buf size cwd m).2 buf (path ++ [0]) ∧
      ∀ unset, (comFsVfsLookup t unset path (t.vfs 0).root (some (t.vfs 0).root) true).1 = .ok cwd
  failure : ∀ e, (comSysSyscallGetcwd t dirent wild (t.vfs 0).root buf size cwd m).1 = .error e →
    e = .EOVERFLOW ∧ ∀ a, size.toNat ≤ (a - buf).toNat →
      (comSysSyscallGetcwd t dirent wild (t.vfs 0).root buf size cwd m).2 a = m a

variable {t : Tree} {dirent : ℕ → Option Bytes} {wild : Option ℕ} {root v w : ℕ}
  {names below : List Bytes} {n : Bytes}

inductive Up (t : Tree) (dirent : ℕ → Option Bytes) (wild : Option ℕ) (root : ℕ) :
    ℕ → List Bytes → Prop where
  | top {v : ℕ} (h : dirent v = none) : Up t dirent wild root v []
  | up {v u : ℕ} {n : Bytes} {names : List Bytes} (h : dirent v = some n) (hne : n ≠ [])
      (hslash : slash ∉ n)
      (hparent : (comFsVfsLookup t wild dotdot root (some v) true).1 = .ok u)
      (hup : Up t dirent wild root u names) : Up t dirent wild root v (n :: names)

section Named

variable (hn : Named t dirent)
include hn

theorem find_entry (h : (n, w) ∈ (t.node v).entries) :
    (t.node v).entries.find? (·.1 = n) = some (n, w) :=
  find_of_nodup (hn.nodup v) h

theorem dirent_bottom (h : dirent v = none) : dirent (bottom t v) = none := by
  refine exhaust_invariant (fun x => dirent x = none) (fun x r _ hr => ?_) _ h
  obtain ⟨f, hf, rfl⟩ := Option.map_eq_some_iff.mp hr
  exact hn.root f (t.mounted x f hf).2.1

theorem dirent_over {r : ℕ} (h : t.over w = some r) : dirent (bottom t w) = none := by
  obtain ⟨k, hk⟩ := numVfs_succ t
  obtain ⟨f, hf, rfl⟩ := Option.map_eq_some_iff.mp h
  rw [bottom, hk, exhaust, h]
  refine exhaust_invariant (fun x => dirent x = none) (fun x r _ hr => ?_) _ (hn.root f ?_)
  · obtain ⟨g, hg, rfl⟩ := Option.map_eq_some_iff.mp hr
    exact hn.root g (t.mounted x g hg).2.1
  · exact (t.mounted w f hf).2.1

theorem step_entry (h : (n, w) ∈ (t.node v).entries) (hv : (t.node v).type = .dir) :
    step t v n = .ok (bottom t w) := by
  obtain ⟨-, -, -, hdo, hdt⟩ := hn.proper v n w h
  exact step_of_find hdo hdt hv (find_entry hn h)

theorem step_dotdot (h : (n, w) ∈ (t.node v).entries) (hw : (t.node w).type = .dir) :
    step t w dotdot = .ok (bottom t v) := by
  have hab : t.above w = none := by
    rw [Tree.above, hn.inner v n w h]
    rfl
  have htp : top t w = w := exhaust_of_none hab _
  rw [step, if_neg (by decide), lookupDir, if_pos rfl, htp, if_neg (not_not.mpr hw), child,
    if_pos rfl, hn.parent v n w h]
  rfl

end Named

theorem zero_lt_numVfs (t : Tree) : 0 < t.numVfs := Nat.lt_of_le_of_lt (Nat.zero_le _) (t.bound 0)

theorem Reached.type (h : Reached t names below v) : (t.node v).type = .dir := by
  cases h with
  | root => exact (t.root 0 (zero_lt_numVfs t)).2
  | entry _ _ hdir _ => exact hdir
  | mount _ _ hover =>
    by_contra hne
    exact Option.some_ne_none _ (hover.symm.trans (over_none_of_bottom hne))

theorem Reached.walk (hn : Named t dirent) (h : Reached t names below v) :
    walk t (t.vfs 0).root names = .ok (.done v) := by
  have hst : ∀ {names below : List Bytes} {u w : ℕ} {n : Bytes}, Reached t names below u →
      VfsLookup.walk t (t.vfs 0).root names = .ok (.done u) → (n, w) ∈ (t.node u).entries →
      (t.node (bottom t w)).type = .dir →
      VfsLookup.walk t (t.vfs 0).root (names ++ [n]) = .ok (.done (bottom t w)) := by
    intro names below u w n hu hwk hentry hty
    have hdo := (hn.proper u n w hentry).2.2.2.1
    rw [walk_append hwk, walk_cons_of_step hdo (step_entry hn hentry hu.type)
      (by rw [hty]; decide)]
    rfl
  induction h with
  | root => rfl
  | entry h hentry hdir hover ih =>
    have hb := bottom_of_none hover
    have hwk := hst h ih hentry (by rwa [hb])
    rwa [hb] at hwk
  | mount h hentry hover ih => exact hst h ih hentry (Reached.mount h hentry hover).type

theorem Reached.proper (hn : Named t dirent) (h : Reached t names below v) :
    ∀ n ∈ names, n ≠ [] ∧ slash ∉ n ∧ 0 ∉ n := by
  have hsn : ∀ {names : List Bytes} {u w : ℕ} {n : Bytes}, (n, w) ∈ (t.node u).entries →
      (∀ n ∈ names, n ≠ [] ∧ slash ∉ n ∧ 0 ∉ n) →
      ∀ m ∈ names ++ [n], m ≠ [] ∧ slash ∉ m ∧ 0 ∉ m := by
    intro names u w n hentry hnames m hm
    rcases mem_append.mp hm with hm | hm
    · exact hnames m hm
    · obtain rfl := mem_singleton.mp hm
      obtain ⟨hne, hslash, hnu, -⟩ := hn.proper _ _ _ hentry
      exact ⟨hne, hslash, hnu⟩
  induction h with
  | root => simp
  | entry h hentry hdir hover ih | mount h hentry hover ih => exact hsn hentry ih

theorem lookup_dotdot (hn : Named t dirent) (h : (n, w) ∈ (t.node v).entries)
    (hv : (t.node v).type = .dir) (hw : (t.node w).type = .dir) :
    (comFsVfsLookup t wild dotdot root (some w) true).1 = .ok (bottom t v) := by
  have hty : (t.node (bottom t v)).type ≠ .link := by
    rw [bottom, exhaust_over_type hv]
    decide
  apply lookup_of_walk _ hty
  change walk t w [dotdot] = _
  rw [walk_cons_of_step (by decide) (step_dotdot hn h hw) hty]
  rfl

theorem Reached.up (hn : Named t dirent) (h : Reached t names below v) :
    Up t dirent wild root v below.reverse ∧ Up t dirent wild root (bottom t v) below.reverse := by
  induction h with
  | root =>
    have hrt := hn.root 0 (zero_lt_numVfs t)
    exact ⟨.top hrt, .top (dirent_bottom hn hrt)⟩
  | entry h hentry hdir hover ih =>
    obtain ⟨hne, hslash, -⟩ := hn.proper _ _ _ hentry
    rw [bottom_of_none hover, reverse_append]
    have hup := Up.up (hn.name _ _ _ hentry) hne hslash (lookup_dotdot hn hentry h.type hdir) ih.2
    exact ⟨hup, hup⟩
  | mount h hentry hover ih =>
    rw [bottom_of_none (over_bottom t _)]
    exact ⟨.top (dirent_over hn hover), .top (dirent_over hn hover)⟩

variable {buf size : Ptr} {m m₀ : Mem} {i : ℤ} {tail : Bytes}

theorem index_sub (buf : Ptr) (i : ℤ) (k : ℕ) :
    index buf (i - k) = index buf i - ofNat 64 k := by
  rw [index, index, Int.sub_eq_add_neg, BitVec.ofInt_add, BitVec.ofInt_neg, BitVec.ofInt_natCast,
    ← BitVec.add_assoc, BitVec.sub_eq_add_neg]

theorem index_natCast (buf : Ptr) (k : ℕ) : index buf k = buf + ofNat 64 k := by
  rw [index, BitVec.ofInt_natCast]

def Inside (buf size : Ptr) (m₀ m : Mem) : Prop :=
  ∀ a, size.toNat ≤ (a - buf).toNat → m a = m₀ a

theorem Inside.write (h : Inside buf size m₀ m) {k : ℕ} {xs : List UInt8}
    (hk : k + xs.length ≤ size.toNat) :
    Inside buf size m₀ (write m (buf + ofNat 64 k) xs) := by
  intro a ha
  rw [ByteMemory.write, List.getElem?_eq_none, Option.getD_none]
  · exact h a ha
  · have hsb : a - (buf + ofNat 64 k) = a - buf - ofNat 64 k := by
      generalize ofNat 64 k = x
      bv_omega
    rw [hsb, BitVec.toNat_sub, BitVec.toNat_ofNat]
    omega

def flat : List Bytes → Bytes
  | [] => []
  | n :: names => flat names ++ slash :: n

structure Placed (buf size : Ptr) (m₀ m : Mem) (i : ℤ) (tail : Bytes) : Prop where
  stacked : Stacked (buf + size) m (index buf (i + 1)) (tail ++ [0])
  fits : i + 2 + tail.length = size.toNat
  inside : Inside buf size m₀ m

theorem Placed.push (h : Placed buf size m₀ m i tail) (xs : Bytes) {j : ℤ} (hj : 0 ≤ j)
    (hxs : j + xs.length = i + 1) :
    Placed buf size m₀ (write m (index buf j) xs) (j - 1) (xs ++ tail) := by
  have hft := h.fits
  constructor
  · rw [append_assoc, Int.sub_add_cancel]
    apply h.stacked.push
    · rw [length_append, length_singleton]
      omega
    · rw [← index_sub, ← hxs, Int.add_sub_cancel]
  · rw [length_append]
    omega
  · obtain ⟨k, rfl⟩ := Int.eq_ofNat_of_zero_le hj
    apply h.inside.write
    omega

theorem Placed.read {c : UInt8} {rest : Bytes} (h : Placed buf size m₀ m i tail)
    (htl : tail ++ [0] = c :: rest) : m (index buf (i + 1)) = c := by
  have hhl := h.stacked.holds
  rw [htl] at hhl
  exact hhl.head

def whole (tail : Bytes) : Bytes := if tail = [] then [slash] else tail

theorem loop_top (hv : dirent v = none) (h : Placed buf size m₀ m i tail)
    (hrtd : tail = [] ∨ tail.head? = some slash) (fuel : ℕ) :
    (0 ≤ i → ∃ j m', getcwdLoop t dirent wild root buf (fuel + 1) m i v = (.ok j, m') ∧
        Placed buf size m₀ m' j (whole tail)) ∧
      (i < 0 → getcwdLoop t dirent wild root buf (fuel + 1) m i v = (.error .EOVERFLOW, m)) := by
  have hnm : comFsTmpfsVnctl dirent v = [] := by rw [comFsTmpfsVnctl, hv, Option.getD_none]
  have hid : i - (((0 : ℕ) : ℤ) - 1) = i + 1 := by omega
  constructor
  · intro hi
    simp only [getcwdLoop, hnm, length_nil, hid, write_nil, if_true]
    rw [if_neg (by omega)]
    rcases hrtd with rfl | hhd
    · have hrd : m (index buf (i + 1)) = 0 := h.read rfl
      have hpl := h.push [slash] hi (show i + 1 = i + 1 from rfl)
      rw [if_pos (by rw [hrd]; decide), Int.add_sub_cancel]
      refine ⟨_, _, rfl, ?_⟩
      have hj : i + 1 - 2 = i - 1 := by omega
      rw [hj]
      exact hpl
    · obtain ⟨rest, rfl⟩ := List.head?_eq_some_iff.mp hhd
      have hrd : m (index buf (i + 1)) = slash := h.read rfl
      rw [if_neg (not_not.mpr hrd), Int.add_sub_cancel]
      exact ⟨_, _, rfl, h⟩
  · intro hi
    simp only [getcwdLoop, hnm, length_nil, hid]
    rw [if_pos (by omega)]

theorem loop_name {u : ℕ} (hv : dirent v = some n) (hne : n ≠ []) (hslash : slash ∉ n)
    (hparent : (comFsVfsLookup t wild dotdot root (some v) true).1 = .ok u)
    (h : Placed buf size m₀ m i tail) (fuel : ℕ) :
    ((n.length : ℤ) ≤ i → ∃ m', Placed buf size m₀ m' (i - n.length - 1) (slash :: n ++ tail) ∧
        getcwdLoop t dirent wild root buf (fuel + 1) m i v = getcwdLoop t dirent wild root buf fuel
        m' (i - n.length - 1) u) ∧
      (i < n.length → getcwdLoop t dirent wild root buf (fuel + 1) m i v =
        (.error .EOVERFLOW, m)) := by
  have hnm : comFsTmpfsVnctl dirent v = n := by rw [comFsTmpfsVnctl, hv, Option.getD_some]
  have hln : n.length ≠ 0 := fun h0 => hne (length_eq_zero_iff.mp h0)
  constructor
  · intro hi
    have hcp := h.push n (j := i - (n.length - 1)) (by omega) (by omega)
    have hrd : (write m (index buf (i - (n.length - 1))) n)
        (index buf (i - (n.length - 1))) ≠ slash := by
      obtain ⟨c, rest, rfl⟩ := exists_cons_of_ne_nil hne
      have hc := hcp.read (show (c :: rest) ++ tail ++ [0] = c :: (rest ++ tail ++ [0]) from rfl)
      rw [Int.sub_add_cancel] at hc
      rw [hc]
      rintro rfl
      exact hslash mem_cons_self
    have hsp := hcp.push [slash] (j := i - (n.length - 1) - 1) (by omega)
      (by rw [length_singleton]; rfl)
    have hj : i - ((n.length : ℤ) - 1) - 1 - 1 = i - n.length - 1 := by omega
    have hj' : i - ((n.length : ℤ) - 1) - 2 = i - n.length - 1 := by omega
    rw [hj] at hsp
    refine ⟨_, hsp, ?_⟩
    simp only [getcwdLoop, hnm]
    rw [if_neg (by omega), if_pos hrd, if_neg hln, hparent, hj']
  · intro hi
    simp only [getcwdLoop, hnm]
    rw [if_pos (by omega)]

theorem loop_spec (hup : Up t dirent wild root v names) (h : Placed buf size m₀ m i tail)
    (hrtd : tail = [] ∨ tail.head? = some slash) {fuel : ℕ} (hfl : i + 2 ≤ fuel)
    (hps : 0 < fuel) :
    ((flat names).length ≤ i → ∃ j m', getcwdLoop t dirent wild root buf fuel m i v = (.ok j, m') ∧
        Placed buf size m₀ m' j (whole (flat names ++ tail))) ∧
      (i < (flat names).length → ∃ m',
        getcwdLoop t dirent wild root buf fuel m i v = (.error .EOVERFLOW, m') ∧
          Inside buf size m₀ m') := by
  induction hup generalizing m i tail fuel with
  | top hv =>
    obtain ⟨fuel, rfl⟩ := Nat.exists_eq_succ_of_ne_zero hps.ne'
    exact ⟨(loop_top hv h hrtd fuel).1, fun hi => ⟨m, (loop_top hv h hrtd fuel).2 hi, h.inside⟩⟩
  | @up v u n names hv hne hslash hparent _ ih =>
    obtain ⟨fuel, rfl⟩ := Nat.exists_eq_succ_of_ne_zero hps.ne'
    have hflt : (flat (n :: names)).length = (flat names).length + (n.length + 1) := by
      simp [flat]
    obtain ⟨hok, hover⟩ := loop_name hv hne hslash hparent h fuel
    rcases Int.lt_or_le i n.length with hi | hi
    · exact ⟨fun hle => by omega, fun _ => ⟨m, hover hi, h.inside⟩⟩
    · obtain ⟨m', hpl, heq⟩ := hok hi
      have hfl' : i - n.length - 1 + 2 ≤ fuel := by omega
      obtain ⟨hok', hover'⟩ := ih hpl (.inr rfl) hfl' (by omega)
      rw [heq]
      refine ⟨fun hle => ?_, fun hlt => hover' (by omega)⟩
      obtain ⟨j, m'', hj, hfn⟩ := hok' (by omega)
      refine ⟨j, m'', hj, ?_⟩
      rwa [flat, append_assoc]

theorem flat_append (names more : List Bytes) : flat (names ++ more) = flat more ++ flat names := by
  induction names with
  | nil => simp [flat]
  | cons n names ih => simp [flat, ih]

theorem flat_reverse (names : List Bytes) : flat names.reverse = names.flatMap (slash :: ·) := by
  induction names with
  | nil => rfl
  | cons n names ih => rw [reverse_cons, flat_append, ih, flatMap_cons]; rfl

theorem whole_flat (names : List Bytes) : whole (flat names.reverse) = render names := by
  rw [flat_reverse, whole, render]
  cases names with
  | nil => rfl
  | cons n names => simp

theorem kmemmove_holds {src : Ptr} {xs : List UInt8} (h : Holds m src xs) (hln : xs.length < 2 ^ 64) :
    Holds (kmemmove m buf src xs.length) buf xs := by
  intro k hk
  rw [h k hk, kmemmove, sub_toNat (by omega), if_pos hk, BitVec.add_comm buf, BitVec.add_sub_cancel]

theorem size_sub_one (hsz : 0 < size.toNat) : size - 1 = ofNat 64 (size.toNat - 1) := by
  apply BitVec.eq_of_toNat_eq
  rw [BitVec.toNat_sub, BitVec.toNat_ofNat]
  change (2 ^ 64 - 1 + size.toNat) % 2 ^ 64 = _
  omega

theorem inside_terminator (hsz : 0 < size.toNat) (m : Mem) :
    Inside buf size m (write m (buf + (size - 1)) [0]) := by
  have hin : Inside buf size m m := fun _ _ => rfl
  rw [size_sub_one hsz]
  apply hin.write
  rw [length_singleton]
  omega

theorem placed_terminator (hsz : 0 < size.toNat) (hlt : size.toNat < 2 ^ 63) (m : Mem) :
    Placed buf size m (write m (buf + (size - 1)) [0]) (size.toInt - 2) [] := by
  have hint : size.toInt = size.toNat := BitVec.toInt_eq_toNat_of_lt (by omega)
  have hid : index buf (size.toInt - 2 + 1) = buf + (size - 1) := by
    rw [size_sub_one hsz, ← index_natCast]
    congr 1
    omega
  constructor
  · rw [hid, nil_append]
    apply (stacked_nil _ _).push
    · simp
    · simp only [length_singleton]
      bv_omega
  · rw [length_nil]
    omega
  · exact inside_terminator hsz m

def Room (names : List Bytes) (size : Ptr) : Prop :=
  (flat names).length + 2 ≤ size.toNat ∧ size.toNat < 2 ^ 63
  deriving Decidable

theorem length_whole (tail : Bytes) : (whole tail).length ≤ tail.length + 1 := by
  unfold whole
  split
  · next h => simp
  · omega

theorem getcwd_of_room (hup : Up t dirent wild root v names) (hrm : Room names size) (buf : Ptr)
    (m : Mem) :
    (comSysSyscallGetcwd t dirent wild root buf size v m).1 = .ok () ∧
      Holds (comSysSyscallGetcwd t dirent wild root buf size v m).2 buf (whole (flat names) ++ [0]) := by
  obtain ⟨hrm, hlt⟩ := hrm
  have hint : size.toInt = size.toNat := BitVec.toInt_eq_toNat_of_lt (by omega)
  have hpl : Placed buf size m _ _ [] := placed_terminator (by omega) hlt m
  have hfl : size.toInt - 2 + 2 ≤ (size.toNat + 1 : ℕ) := by omega
  obtain ⟨j, m', hlp, hfn⟩ := (loop_spec hup hpl (.inl rfl) hfl (by omega)).1 (by omega)
  rw [append_nil] at hfn
  have hft := hfn.fits
  have hln := length_whole (flat names)
  have hwr : (size.toInt - j - 1).toNat = (whole (flat names) ++ [0]).length := by
    rw [length_append, length_singleton]
    omega
  rw [comSysSyscallGetcwd, if_neg (by omega)]
  dsimp only
  rw [hlp]
  refine ⟨rfl, ?_⟩
  dsimp only
  rw [hwr]
  apply kmemmove_holds hfn.stacked.holds
  omega

theorem getcwd_of_not_room (hup : Up t dirent wild root v names) (hrm : ¬ Room names size)
    (buf : Ptr) (m : Mem) :
    (comSysSyscallGetcwd t dirent wild root buf size v m).1 = .error .EOVERFLOW ∧
      Inside buf size m (comSysSyscallGetcwd t dirent wild root buf size v m).2 := by
  rw [comSysSyscallGetcwd]
  by_cases hzr : size.toNat < 1
  · rw [if_pos hzr]
    exact ⟨rfl, fun _ _ => rfl⟩
  rw [if_neg hzr]
  dsimp only
  rcases lt_or_ge size.toNat (2 ^ 63) with hlt | hge
  · have hint : size.toInt = size.toNat := BitVec.toInt_eq_toNat_of_lt (by omega)
    have hfl : size.toInt - 2 + 2 ≤ (size.toNat + 1 : ℕ) := by omega
    have hpl : Placed buf size m _ _ [] := placed_terminator (by omega) hlt m
    obtain ⟨m', hlp, hin⟩ := (loop_spec hup hpl (.inl rfl) hfl (by omega)).2 (by
      unfold Room at hrm
      omega)
    rw [hlp]
    exact ⟨rfl, hin⟩
  · -- `place_idx` is negative from the start
    have hng : size.toInt < 0 := BitVec.toInt_neg_iff.mpr (by omega)
    rw [getcwdLoop]
    rw [if_pos (by omega)]
    exact ⟨rfl, inside_terminator (by omega) m⟩

theorem components_flatMap (h : ∀ n ∈ names, n ≠ [] ∧ slash ∉ n ∧ 0 ∉ n) :
    components slash (names.flatMap (slash :: ·)) = names := by
  induction names with
  | nil => rfl
  | cons n names ih =>
    obtain ⟨hne, hslash, -⟩ := h n mem_cons_self
    have hrs := ih fun m hm => h m (mem_cons_of_mem n hm)
    rw [flatMap_cons, cons_append, components_sep_cons]
    cases names with
    | nil => rw [flatMap_nil, append_nil, components_of_not_mem hslash hne]
    | cons n' names =>
      rw [flatMap_cons, cons_append] at hrs ⊢
      rw [components_append_sep, components_of_not_mem hslash hne]
      rw [components_sep_cons] at hrs
      rw [hrs]
      rfl

theorem components_render (h : ∀ n ∈ names, n ≠ [] ∧ slash ∉ n ∧ 0 ∉ n) :
    components slash (render names) = names := by
  unfold render
  split
  · next hnl =>
    rw [hnl]
    rfl
  · exact components_flatMap h

theorem head_render (names : List Bytes) : (render names).head? = some slash := by
  unfold render
  split
  · rfl
  · next h =>
    obtain ⟨n, rest, rfl⟩ := exists_cons_of_ne_nil h
    rfl

theorem zero_notMem_render (h : ∀ n ∈ names, n ≠ [] ∧ slash ∉ n ∧ 0 ∉ n) : 0 ∉ render names := by
  unfold render
  split
  · decide
  · intro hme
    obtain ⟨n, hn, hzr⟩ := mem_flatMap.mp hme
    rcases mem_cons.mp hzr with hz | hz
    · exact absurd hz (by decide)
    · exact (h n hn).2.2 hz

theorem Reached.suffix (h : Reached t names below v) : ∃ pre, names = pre ++ below := by
  induction h with
  | root => exact ⟨[], rfl⟩
  | @entry _ _ _ _ n h hentry hdir hover ih =>
    obtain ⟨pre, rfl⟩ := ih
    exact ⟨pre, append_assoc _ _ _⟩
  | mount h hentry hover ih => exact ⟨_, (append_nil _).symm⟩

theorem Reached.lookup (hn : Named t dirent) (h : Reached t names below v) (unset : Option ℕ) :
    (comFsVfsLookup t unset (render names) (t.vfs 0).root (some (t.vfs 0).root) true).1 = .ok v := by
  apply lookup_of_walk
  · rw [start, if_pos (head_render names), components_render (h.proper hn)]
    exact h.walk hn
  · rw [h.type]
    decide

def Leads (t : Tree) (path : Bytes) (cwd : ℕ) : Prop :=
  ∀ unset, (comFsVfsLookup t unset path (t.vfs 0).root (some (t.vfs 0).root) true).1 = .ok cwd

theorem inverts_of_room (hn : Named t dirent) (h : Reached t names below v)
    (hrm : Room below.reverse size) : Inverts t dirent wild names v buf size m ↔
      (render names).length + 1 ≤ size.toNat ∧ Leads t (render below) v := by
  have hup : Up t dirent wild (t.vfs 0).root v below.reverse := (h.up hn).1
  obtain ⟨hok, hhl⟩ := getcwd_of_room hup hrm buf m
  rw [whole_flat] at hhl
  have hpr : ∀ n ∈ below, n ≠ [] ∧ slash ∉ n ∧ 0 ∉ n := by
    obtain ⟨pre, hpe⟩ := h.suffix
    intro n hme
    exact h.proper hn n (hpe ▸ mem_append_right pre hme)
  have hzr := zero_notMem_render hpr
  constructor
  · intro hiv
    refine ⟨hiv.succeeds.mp ⟨(), hok⟩, ?_⟩
    obtain ⟨path, -, hnu, -, hpt, hld⟩ := hiv.path () hok
    rwa [hpt.terminated_unique hhl hnu hzr] at hld
  · rintro ⟨hsz, hld⟩
    refine ⟨⟨fun _ => hsz, fun _ => ⟨(), hok⟩⟩, fun u _ => ?_, fun e he => ?_⟩
    · refine ⟨render below, head_render below, hzr, ?_, hhl, hld⟩
      have hln := length_whole (flat below.reverse)
      rw [whole_flat] at hln
      have hrm' := hrm.1
      omega
    · rw [hok] at he
      cases he

theorem inverts_of_not_room (hn : Named t dirent) (h : Reached t names below v)
    (hrm : ¬ Room below.reverse size) : Inverts t dirent wild names v buf size m ↔
      size.toNat ≤ (render names).length := by
  have hup : Up t dirent wild (t.vfs 0).root v below.reverse := (h.up hn).1
  obtain ⟨her, hin⟩ := getcwd_of_not_room hup hrm buf m
  have hnt : ¬ ∃ u, (comSysSyscallGetcwd t dirent wild (t.vfs 0).root buf size v m).1 = .ok u := by
    rintro ⟨u, hu⟩
    rw [her] at hu
    cases hu
  constructor
  · intro hiv
    by_contra hlt
    exact hnt (hiv.succeeds.mpr (by omega))
  · intro hsz
    refine ⟨⟨fun hu => absurd hu hnt, fun hle => by omega⟩, fun u hu => absurd ⟨u, hu⟩ hnt,
      fun e he => ?_⟩
    rw [her] at he
    cases he
    exact ⟨rfl, hin⟩

def Exact (t : Tree) (names below : List Bytes) (cwd : ℕ) (size : Ptr) : Prop :=
  if 2 ^ 63 ≤ size.toNat then size.toNat ≤ (render names).length
  else if below = names then names = [] ∨ size.toNat ≠ (render names).length + 1
  else size.toNat ≤ (below.flatMap (slash :: ·)).length + 1 ∨
    (render names).length < size.toNat ∧ Leads t (render below) cwd

theorem render_length (h : names ≠ []) :
    (render names).length = (names.flatMap (slash :: ·)).length := by
  rw [render, if_neg h]

theorem Reached.length_lt (hn : Named t dirent) (h : Reached t names below v) (hne : below ≠ names) :
    (below.flatMap (slash :: ·)).length + 2 ≤ (render names).length := by
  obtain ⟨pre, rfl⟩ := h.suffix
  cases pre with
  | nil => exact absurd rfl hne
  | cons n pre =>
    have hps := length_pos_iff.mpr (h.proper hn n mem_cons_self).1
    rw [cons_append, render_length (cons_ne_nil _ _), flatMap_cons, flatMap_append]
    simp only [length_append, length_cons]
    omega

theorem room_iff : Room below.reverse size ↔
    (below.flatMap (slash :: ·)).length + 2 ≤ size.toNat ∧ size.toNat < 2 ^ 63 := by
  rw [Room, flat_reverse]

theorem inverts_unmounted (hn : Named t dirent) (h : Reached t names names v)
    (hsz : size.toNat < 2 ^ 63) : Inverts t dirent wild names v buf size m ↔
      names = [] ∨ size.toNat ≠ (render names).length + 1 := by
  have hld : Leads t (render names) v := h.lookup hn
  by_cases hrm : Room names.reverse size
  · rw [inverts_of_room hn h hrm]
    rw [room_iff] at hrm
    by_cases hnl : names = []
    · subst hnl
      exact ⟨fun _ => .inl rfl, fun _ => ⟨hrm.1, hld⟩⟩
    · rw [render_length hnl] at *
      exact ⟨fun _ => .inr (by omega), fun _ => ⟨by omega, hld⟩⟩
  · rw [inverts_of_not_room hn h hrm]
    rw [room_iff] at hrm
    by_cases hnl : names = []
    · subst hnl
      have hsm : size.toNat ≤ 1 := by
        rw [flatMap_nil, length_nil] at hrm
        omega
      exact ⟨fun _ => .inl rfl, fun _ => hsm⟩
    · rw [render_length hnl]
      refine ⟨fun _ => .inr (by omega), fun hor => ?_⟩
      have hne := hor.resolve_left hnl
      omega

/-- The call of `getcwd` in a directory of a tree with mounts, for every buffer. -/
theorem getcwd_inverts_iff (t : Tree) (dirent : ℕ → Option Bytes) (hn : Named t dirent)
    (wild : Option ℕ) (names below : List Bytes) (cwd : ℕ) (h : Reached t names below cwd)
    (buf size : Ptr) (m : Mem) :
    Inverts t dirent wild names cwd buf size m ↔ Exact t names below cwd size := by
  unfold Exact
  by_cases hbg : 2 ^ 63 ≤ size.toNat
  · have hrm : ¬ Room below.reverse size := fun hrm => absurd hrm.2 (by omega)
    rw [if_pos hbg, inverts_of_not_room hn h hrm]
  rw [if_neg hbg]
  by_cases heq : below = names
  · subst heq
    rw [if_pos rfl, inverts_unmounted hn h (by omega)]
  rw [if_neg heq]
  have hlt := h.length_lt hn heq
  by_cases hrm : Room below.reverse size
  · rw [inverts_of_room hn h hrm]
    rw [room_iff] at hrm
    constructor
    · rintro ⟨hsz, hld⟩
      exact .inr ⟨by omega, hld⟩
    · rintro (hsm | ⟨hsz, hld⟩)
      · omega
      · exact ⟨by omega, hld⟩
  · rw [inverts_of_not_room hn h hrm]
    rw [room_iff] at hrm
    exact ⟨fun _ => .inl (by omega), fun _ => by omega⟩

def homes : Tree := twoMounts [([97], 1), ([98], 3)] [] 0

def homesName : ℕ → Option Bytes
  | 1 => some [97]
  | 3 => some [98]
  | _ => none

theorem homes_entries (h : (n, w) ∈ (homes.node v).entries) :
    v = 0 ∧ (n = [97] ∧ w = 1 ∨ n = [98] ∧ w = 3) := by
  rcases v with _ | _ | _ | v <;> simp [homes, twoMounts] at h
  exact ⟨rfl, h⟩

theorem homes_named : Named homes homesName where
  nodup v := by rcases v with _ | _ | _ | v <;> simp [homes, twoMounts]
  parent v n w h := by
    obtain ⟨rfl, ⟨-, rfl⟩ | ⟨-, rfl⟩⟩ := homes_entries h <;> rfl
  name v n w h := by
    obtain ⟨rfl, ⟨rfl, rfl⟩ | ⟨rfl, rfl⟩⟩ := homes_entries h <;> rfl
  inner v n w h := by
    obtain ⟨rfl, ⟨-, rfl⟩ | ⟨-, rfl⟩⟩ := homes_entries h <;> rfl
  vfs v n w h := by
    obtain ⟨rfl, ⟨-, rfl⟩ | ⟨-, rfl⟩⟩ := homes_entries h <;> rfl
  proper v n w h := by
    obtain ⟨rfl, ⟨rfl, -⟩ | ⟨rfl, -⟩⟩ := homes_entries h <;> decide
  root f h := by
    rcases f with _ | _ | f
    · rfl
    · rfl
    · exact absurd h (show ¬ f + 1 + 1 < 2 by omega)

theorem homes_b : Reached homes [[98]] [[98]] 3 :=
  .entry .root (by simp [homes, twoMounts]) rfl rfl

theorem homes_a : Reached homes [[97]] [] 2 := by
  have hentry : ([97], 1) ∈ (homes.node (homes.vfs 0).root).entries := by simp [homes, twoMounts]
  exact Reached.mount .root hentry rfl

theorem getcwd_inverts_b : Inverts homes homesName none [[98]] 3 0x1000 16 fun _ => 0 := by
  refine (getcwd_inverts_iff homes homesName homes_named none [[98]] [[98]] 3 homes_b 0x1000 16
    _).mpr ?_
  exact .inr (by decide)

/-- In `/b` three bytes are not enough, and on the mount at `/a` the path is that of the root. -/
theorem getcwd_not_inverse : Named homes homesName ∧
    (Reached homes [[98]] [[98]] 3 ∧ ¬ Inverts homes homesName none [[98]] 3 0x1000 3 fun _ => 0) ∧
    (Reached homes [[97]] [] 2 ∧ ¬ Inverts homes homesName none [[97]] 2 0x1000 16 fun _ => 0) := by
  refine ⟨homes_named, ⟨homes_b, fun hiv => ?_⟩, ⟨homes_a, fun hiv => ?_⟩⟩
  · rw [inverts_of_not_room homes_named homes_b (by decide)] at hiv
    exact absurd hiv (by decide)
  · rw [inverts_of_room homes_named homes_a (by decide)] at hiv
    have hrt : (comFsVfsLookup homes none (render []) 0 (some 0) true).1 = .ok 0 := rfl
    have hcw := hiv.2 none
    cases hrt.symm.trans hcw

end GetCwd
