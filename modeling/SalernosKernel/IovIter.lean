import SalernosKernel.ForkMemory

/-! # The iterator over an iovec array

`com/lib/ioviter.c`. An entry of the array is known by its number; lengths and offsets are those of
buffers that together are shorter than the 64-bit range, and the loops run on fuel. -/
namespace IovIter

open ForkMemory (kmemcpy)
open List

structure Iovec where
  iovBase : ℕ
  iovLen : ℕ
  deriving DecidableEq

structure Ioviter where
  firstIov : List Iovec
  currIov : ℕ
  currOff : ℕ
  totalOff : ℕ
  totalSize : ℕ
  deriving DecidableEq

def ioviterSize (iov : List Iovec) : ℕ := iov.foldl (fun size v => (size + v.iovLen) % 2 ^ 64) 0

def kioviterInit (iov : List Iovec) : Ioviter := ⟨iov, 0, 0, 0, ioviterSize iov⟩

namespace Ioviter

variable (it : Ioviter)

def iov : Iovec := it.firstIov.getD it.currIov ⟨0, 0⟩

def currRemaining : ℕ := it.iov.iovLen - it.currOff

def remaining : ℕ := it.totalSize - it.totalOff

def advance (n : ℕ) : Ioviter :=
  let it := { it with totalOff := it.totalOff + n, currOff := it.currOff + n }
  if it.currOff = it.iov.iovLen ∧ it.totalOff ≠ it.totalSize then
    { it with currIov := it.currIov + 1, currOff := 0 }
  else it

end Ioviter

def skipLoop : ℕ → Ioviter → ℕ → Option Ioviter
  | 0, _, _ => none
  | fuel + 1, it, count =>
    let currSkip := min it.currRemaining count
    let it := it.advance currSkip
    if count - currSkip ≠ 0 ∧ it.totalOff ≠ it.totalSize then skipLoop fuel it (count - currSkip)
    else some it

section Calls

variable (fuel : ℕ)

def kioviterSkip (it : Ioviter) (count : ℕ) : Option (ℕ × Ioviter) :=
  (skipLoop fuel it count).map fun it => (it.remaining, it)

def kioviterGoto (it : Ioviter) (off : ℕ) : Option (ℕ × Ioviter) :=
  if it.totalOff < off then kioviterSkip fuel it (off - it.totalOff)
  else kioviterSkip fuel { it with currIov := 0, currOff := 0, totalOff := 0 } off

def copyLoop (copy : (ℕ → BitVec 8) → ℕ → ℕ → ℕ → ℕ → BitVec 8) (buf : ℕ) :
    ℕ → (ℕ → BitVec 8) → Ioviter → ℕ → ℕ → Option ((ℕ → BitVec 8) × Ioviter × ℕ)
  | 0, _, _, _, _ => none
  | rounds + 1, mem, it, done, totRem =>
    let copySize := min it.currRemaining totRem
    let mem := copy mem (it.iov.iovBase + it.currOff) (buf + done) copySize
    (kioviterSkip fuel it copySize).bind fun r =>
      if totRem - copySize ≠ 0 ∧ r.2.totalOff ≠ r.2.totalSize then
        copyLoop copy buf rounds mem r.2 (done + copySize) (totRem - copySize)
      else some (mem, r.2, done + copySize)

def kioviterRead (mem : ℕ → BitVec 8) (buf buflen : ℕ) (it : Ioviter) :
    Option ((ℕ → BitVec 8) × Ioviter × ℕ) :=
  copyLoop fuel (fun mem iov buf n => kmemcpy mem buf iov n) buf fuel mem it 0
    (min buflen it.remaining)

def kioviterWrite (mem : ℕ → BitVec 8) (it : Ioviter) (buf buflen : ℕ) :
    Option ((ℕ → BitVec 8) × Ioviter × ℕ) :=
  copyLoop fuel (fun mem iov buf n => kmemcpy mem iov buf n) buf fuel mem it 0
    (min buflen it.remaining)

end Calls

def cells (iov : List Iovec) : List ℕ := iov.flatMap fun v => range' v.iovBase v.iovLen

structure Valid (iov : List Iovec) (it : Ioviter) : Prop where
  firstIov : it.firstIov = iov
  inside : it.currIov < iov.length
  currOff : it.currOff ≤ it.iov.iovLen
  totalOff : it.totalOff = (cells (iov.take it.currIov)).length + it.currOff
  totalSize : it.totalSize = (cells iov).length

section Positions

variable {iov : List Iovec} {it : Ioviter} {n count : ℕ}

theorem cells_append (xs ys : List Iovec) : cells (xs ++ ys) = cells xs ++ cells ys :=
  flatMap_append

theorem cells_singleton (v : Iovec) : cells [v] = range' v.iovBase v.iovLen := by simp [cells]

theorem Valid.getElem (h : Valid iov it) : iov[it.currIov]? = some it.iov := by
  rw [Ioviter.iov, h.firstIov, getD_eq_getElem?_getD, getElem?_eq_getElem h.inside]
  rfl

theorem Valid.take_succ (h : Valid iov it) :
    iov.take (it.currIov + 1) = iov.take it.currIov ++ [it.iov] := by
  rw [take_add_one, h.getElem]
  rfl

theorem length_take_succ (h : Valid iov it) : (cells (iov.take (it.currIov + 1))).length =
    (cells (iov.take it.currIov)).length + it.iov.iovLen := by
  rw [h.take_succ, cells_append, cells_singleton, length_append, length_range']

theorem Valid.cells_eq (h : Valid iov it) : cells iov = cells (iov.take it.currIov) ++
    (range' it.iov.iovBase it.iov.iovLen ++ cells (iov.drop (it.currIov + 1))) := by
  rw [← append_assoc, ← cells_singleton, ← cells_append, ← h.take_succ, ← cells_append,
    take_append_drop]

theorem Valid.le_size (h : Valid iov it) : it.totalOff + it.currRemaining ≤ it.totalSize := by
  have hln := congrArg length h.cells_eq
  have hof := h.currOff
  rw [length_append, length_append, length_range'] at hln
  rw [h.totalOff, h.totalSize, Ioviter.currRemaining]
  omega

theorem Valid.advance (h : Valid iov it) (hn : n ≤ it.currRemaining) :
    Valid iov (it.advance n) ∧ (it.advance n).totalOff = it.totalOff + n ∧
      (n = it.currRemaining → it.totalOff + n ≠ it.totalSize →
        (it.advance n).currIov = it.currIov + 1) := by
  have hof := h.currOff
  have htt := h.totalOff
  have hsz := h.totalSize
  rw [Ioviter.currRemaining] at hn
  rw [Ioviter.advance]
  split_ifs with hmv
  · obtain ⟨hed, hmr⟩ := hmv
    change it.currOff + n = it.iov.iovLen at hed
    have hnx : it.currIov + 1 < iov.length := by
      by_contra hlast
      apply hmr
      have hal : iov.take (it.currIov + 1) = iov := take_of_length_le (by omega)
      have hln := length_take_succ h
      rw [hal] at hln
      change it.totalOff + n = it.totalSize
      omega
    refine ⟨⟨h.firstIov, hnx, Nat.zero_le _, ?_, h.totalSize⟩, rfl, fun _ _ => rfl⟩
    change it.totalOff + n = (cells (iov.take (it.currIov + 1))).length + 0
    rw [length_take_succ h]
    omega
  · refine ⟨⟨h.firstIov, h.inside, ?_, ?_, h.totalSize⟩, rfl, fun hrm hmr => ?_⟩
    · change it.currOff + n ≤ it.iov.iovLen
      omega
    · change it.totalOff + n = (cells (iov.take it.currIov)).length + (it.currOff + n)
      omega
    · refine absurd ⟨?_, hmr⟩ hmv
      change it.currOff + n = it.iov.iovLen
      rw [hrm, Ioviter.currRemaining]
      omega

theorem skipLoop_spec {fuel : ℕ} (h : Valid iov it) (hfl : iov.length ≤ it.currIov + fuel) :
    ∃ it', skipLoop fuel it count = some it' ∧ Valid iov it' ∧
      it'.totalOff = min (it.totalOff + count) it'.totalSize := by
  induction fuel generalizing it count with
  | zero => exact absurd h.inside (by omega)
  | succ fuel ih =>
    obtain ⟨hvl, htt, hmv⟩ := h.advance (min_le_left it.currRemaining count)
    have hle := h.le_size
    have hsz : (it.advance (min it.currRemaining count)).totalSize = it.totalSize :=
      hvl.totalSize.trans h.totalSize.symm
    rw [skipLoop]
    split_ifs with hmr
    · obtain ⟨it', hsk, hvl', htt'⟩ :=
        @ih _ (count - min it.currRemaining count) hvl (by omega)
      refine ⟨it', hsk, hvl', ?_⟩
      omega
    · refine ⟨_, rfl, hvl, ?_⟩
      omega

theorem skipLoop_one {fuel : ℕ} (hn : n ≤ it.currRemaining) (hfl : 0 < fuel) :
    skipLoop fuel it n = some (it.advance n) := by
  obtain ⟨fuel, rfl⟩ := Nat.exists_eq_add_one.mpr hfl
  rw [skipLoop, Nat.min_eq_right hn, Nat.sub_self]
  simp

theorem Valid.block (h : Valid iov it) (hn : n ≤ it.currRemaining) :
    ((cells iov).drop it.totalOff).take n = range' (it.iov.iovBase + it.currOff) n := by
  rw [Ioviter.currRemaining] at hn
  have hof := h.currOff
  rw [h.totalOff, h.cells_eq, ← drop_drop, drop_left,
    drop_append_of_le_length (by rw [length_range']; exact hof), drop_range',
    take_append_of_le_length (by rw [length_range']; omega),
    take_range'_of_length_ge hn, mul_one]

end Positions

structure Copies (mem mem' : ℕ → BitVec 8) (dsts srcs : List ℕ) : Prop where
  moved : ∀ (i d s : ℕ), dsts[i]? = some d → srcs[i]? = some s → mem' d = mem s
  kept : ∀ a, a ∉ dsts → mem' a = mem a

theorem copies_kmemcpy (mem : ℕ → BitVec 8) (dst src n : ℕ) :
    Copies mem (kmemcpy mem dst src n) (range' dst n) (range' src n) := by
  constructor
  · intro i d s hd hs
    obtain ⟨hi, rfl⟩ := List.getElem?_eq_some_iff.mp hd
    obtain ⟨-, rfl⟩ := List.getElem?_eq_some_iff.mp hs
    rw [length_range'] at hi
    rw [getElem_range', getElem_range', kmemcpy, if_pos (by omega)]
    congr 1
    omega
  · intro a ha
    refine if_neg fun h => ha ?_
    rw [mem_range'_1]
    exact h

theorem Copies.append {mem mem₁ mem₂ : ℕ → BitVec 8} {d₁ d₂ s₁ s₂ : List ℕ}
    (h₁ : Copies mem mem₁ d₁ s₁) (h₂ : Copies mem₁ mem₂ d₂ s₂) (hln : d₁.length = s₁.length)
    (hd : ∀ a ∈ d₁, a ∉ d₂) (hs : ∀ a ∈ s₂, a ∉ d₁) : Copies mem mem₂ (d₁ ++ d₂) (s₁ ++ s₂) := by
  constructor
  · intro i d s hid his
    by_cases hi : i < d₁.length
    · rw [getElem?_append_left hi] at hid
      rw [getElem?_append_left (hln ▸ hi)] at his
      rw [h₂.kept d (hd d (mem_of_getElem? hid)), h₁.moved i d s hid his]
    · rw [getElem?_append_right (by omega)] at hid his
      rw [← hln] at his
      rw [h₂.moved _ d s hid his, h₁.kept s (hs s (mem_of_getElem? his))]
  · intro a ha
    rw [mem_append, not_or] at ha
    rw [h₂.kept a ha.2, h₁.kept a ha.1]

section CopyLoop

variable {iov : List Iovec} {fuel buf : ℕ} {copy : (ℕ → BitVec 8) → ℕ → ℕ → ℕ → ℕ → BitVec 8}

def pick {α : Type*} (intoIov : Bool) (a b : α) : α := if intoIov then a else b

theorem disjoint_blocks {l : List ℕ} (h : l.Nodup) {k n m a : ℕ} (ha : a ∈ (l.drop k).take n) :
    a ∉ (l.drop (k + n)).take m := by
  intro ha'
  have hsp : ((l.drop k).take n ++ (l.drop k).drop n).Nodup := by
    rw [take_append_drop]
    exact h.sublist (drop_sublist k l)
  rw [← drop_drop] at ha'
  exact (nodup_append.mp hsp).2.2 a ha a (mem_of_mem_take ha') rfl

theorem copies_pick (intoIov : Bool) {mem mem₁ mem₂ : ℕ → BitVec 8} {k b n m buflen : ℕ}
    (hnd : (cells iov).Nodup) (hbf : ∀ a ∈ cells iov, a ∉ range' buf buflen)
    (hln : k + n + m ≤ (cells iov).length) (hb : b + n + m ≤ buflen)
    (h₁ : Copies mem mem₁ (pick intoIov (((cells iov).drop k).take n) (range' (buf + b) n)) (pick
      intoIov (range' (buf + b) n) (((cells iov).drop k).take n)))
    (h₂ : Copies mem₁ mem₂ (pick intoIov (((cells iov).drop (k + n)).take m) (range' (buf + (b + n))
      m)) (pick intoIov (range' (buf + (b + n)) m) (((cells iov).drop (k + n)).take m))) :
    Copies mem mem₂ (pick intoIov (((cells iov).drop k).take (n + m)) (range' (buf + b) (n + m)))
      (pick intoIov (range' (buf + b) (n + m)) (((cells iov).drop k).take (n + m))) := by
  have hcl : ((cells iov).drop k).take (n + m) =
      ((cells iov).drop k).take n ++ ((cells iov).drop (k + n)).take m := by
    rw [take_add, drop_drop]
  have hrg : range' (buf + b) (n + m) =
      range' (buf + b) n ++ range' (buf + (b + n)) m := by
    rw [← add_assoc, range'_append_1]
  have hbl : (((cells iov).drop k).take n).length = n := by
    rw [length_take, length_drop]
    omega
  have hap : ∀ {a i j : ℕ}, a ∈ ((cells iov).drop i).take j →
      ∀ {c d : ℕ}, c + d ≤ buflen → a ∉ range' (buf + c) d := by
    intro a i j ha c d hcd hme
    apply hbf a (mem_of_mem_drop (mem_of_mem_take ha))
    rw [mem_range'_1] at hme ⊢
    omega
  rw [hcl, hrg]
  cases intoIov with
  | true =>
    refine h₁.append h₂ (by simpa [pick] using hbl) (fun a ha => disjoint_blocks hnd ha) ?_
    intro a ha ha'
    exact hap ha' (c := b + n) (by omega) ha
  | false =>
    refine h₁.append h₂ (by simpa [pick] using hbl.symm) ?_ ?_
    · intro a ha ha'
      change a ∈ range' (buf + b) n at ha
      rw [mem_range'_1] at ha ha'
      omega
    · intro a ha
      exact hap (c := b) ha (by omega)

theorem copyLoop_spec (intoIov : Bool) (hcp : ∀ mem a b n, Copies mem (copy mem a b n) (pick intoIov
      (range' a n) (range' b n)) (pick intoIov (range' b n) (range' a n)))
    (hnd : (cells iov).Nodup) {buflen : ℕ} (hbf : ∀ a ∈ cells iov, a ∉ range' buf buflen)
    (hfl : 0 < fuel) {rounds : ℕ} {mem : ℕ → BitVec 8} {it : Ioviter} {done totRem : ℕ}
    (h : Valid iov it) (hrn : iov.length ≤ it.currIov + rounds) (hrm : totRem ≤ it.remaining)
    (hln : done + totRem ≤ buflen) :
    ∃ mem' it', copyLoop fuel copy buf rounds mem it done totRem = some (mem', it', done + totRem) ∧
      Valid iov it' ∧ it'.totalOff = it.totalOff + totRem ∧ Copies mem mem'
        (pick intoIov (((cells iov).drop it.totalOff).take totRem) (range' (buf + done) totRem))
        (pick intoIov (range' (buf + done) totRem) (((cells iov).drop it.totalOff).take totRem)) := by
  induction rounds generalizing mem it done totRem with
  | zero => exact absurd h.inside (by omega)
  | succ rounds ih =>
    have hn := min_le_left it.currRemaining totRem
    obtain ⟨hvl, htt, hmv⟩ := h.advance hn
    have hsz : (it.advance (min it.currRemaining totRem)).totalSize = it.totalSize :=
      hvl.totalSize.trans h.totalSize.symm
    rw [Ioviter.remaining] at hrm
    have hfs := hcp mem (it.iov.iovBase + it.currOff) (buf + done)
      (min it.currRemaining totRem)
    rw [← h.block hn] at hfs
    rw [copyLoop, kioviterSkip, skipLoop_one hn hfl, Option.map_some, Option.bind_some]
    split_ifs with hmr
    · obtain ⟨mem', it', hlp, hvl', htt', hrs⟩ := @ih
        (copy mem (it.iov.iovBase + it.currOff) (buf + done) (min it.currRemaining totRem)) _
        (done + min it.currRemaining totRem) (totRem - min it.currRemaining totRem)
        hvl (by omega) (by rw [Ioviter.remaining, htt, hsz]; omega) (by omega)
      refine ⟨mem', it', hlp.trans (congrArg some ?_), hvl', by omega, ?_⟩
      · rw [Nat.add_assoc, Nat.add_sub_cancel' (Nat.min_le_right _ _)]
      · rw [htt] at hrs
        have hal := copies_pick intoIov hnd hbf (by rw [← h.totalSize]; omega) (by omega)
          hfs hrs
        rwa [Nat.add_sub_cancel' (Nat.min_le_right _ _)] at hal
    · have hal : min it.currRemaining totRem = totRem := by
        rw [htt, hsz] at hmr
        omega
      rw [hal] at hvl htt hfs ⊢
      exact ⟨_, _, rfl, hvl, htt, hfs⟩

theorem Valid.transfer (intoIov : Bool) (hcp : ∀ mem a b n, Copies mem (copy mem a b n) (pick
      intoIov (range' a n) (range' b n)) (pick intoIov (range' b n) (range' a n)))
    (hnd : (cells iov).Nodup) {buflen : ℕ} (hbf : ∀ a ∈ cells iov, a ∉ range' buf buflen)
    {it : Ioviter} (h : Valid iov it) (hfl : iov.length ≤ fuel) (mem : ℕ → BitVec 8) {n : ℕ}
    (hn : n = min buflen ((cells iov).length - it.totalOff)) :
    ∃ mem' it', copyLoop fuel copy buf fuel mem it 0 (min buflen it.remaining) =
        some (mem', it', n) ∧ Valid iov it' ∧ it'.totalOff = it.totalOff + n ∧
      Copies mem mem' (pick intoIov (((cells iov).drop it.totalOff).take n) (range' buf n))
        (pick intoIov (range' buf n) (((cells iov).drop it.totalOff).take n)) := by
  have hrm : min buflen it.remaining = n := by rw [hn, Ioviter.remaining, h.totalSize]
  have hps : 0 < fuel := Nat.lt_of_lt_of_le (Nat.zero_lt_of_lt h.inside) hfl
  have hrn : iov.length ≤ it.currIov + fuel := Nat.le_add_left_of_le hfl
  have hln : 0 + n ≤ buflen := by omega
  rw [hrm]
  have hlp := @copyLoop_spec iov fuel buf copy intoIov hcp hnd buflen hbf hps fuel mem it 0
    n h hrn (hrm ▸ Nat.min_le_right _ _) hln
  rwa [Nat.zero_add] at hlp

end CopyLoop

inductive Request where
  | skip (count : ℕ)
  | goto (off : ℕ)
  | read (buf buflen : ℕ)
  | write (buf buflen : ℕ)
  deriving DecidableEq

structure State where
  mem : ℕ → BitVec 8
  it : Ioviter
  out : ℕ

def next (fuel : ℕ) (s : State) : Request → Option State
  | .skip count => (kioviterSkip fuel s.it count).map fun r => ⟨s.mem, r.2, r.1⟩
  | .goto off => (kioviterGoto fuel s.it off).map fun r => ⟨s.mem, r.2, r.1⟩
  | .read buf buflen =>
    (kioviterRead fuel s.mem buf buflen s.it).map fun r => ⟨r.1, r.2.1, r.2.2⟩
  | .write buf buflen =>
    (kioviterWrite fuel s.mem s.it buf buflen).map fun r => ⟨r.1, r.2.1, r.2.2⟩

def Apart (iov : List Iovec) : Request → Prop
  | .skip _ => True
  | .goto _ => True
  | .read buf buflen => ∀ a ∈ cells iov, a ∉ range' buf buflen
  | .write buf buflen => ∀ a ∈ cells iov, a ∉ range' buf buflen

instance (iov : List Iovec) : DecidablePred (Apart iov) := fun r =>
  match r with
  | .skip _ => inferInstanceAs (Decidable True)
  | .goto _ => inferInstanceAs (Decidable True)
  | .read buf buflen =>
    inferInstanceAs (Decidable (∀ a ∈ cells iov, a ∉ range' buf buflen))
  | .write buf buflen =>
    inferInstanceAs (Decidable (∀ a ∈ cells iov, a ∉ range' buf buflen))

def Does (iov : List Iovec) (s : State) (r : Request) (s' : State) : Prop :=
  let size := (cells iov).length
  let here := s.it.totalOff
  match r with
  | .skip count =>
    s'.mem = s.mem ∧ s'.it.totalOff = min (here + count) size ∧ s'.out = size - s'.it.totalOff
  | .goto off => s'.mem = s.mem ∧ s'.it.totalOff = min off size ∧ s'.out = size - s'.it.totalOff
  | .read buf buflen =>
    let n := min buflen (size - here)
    s'.out = n ∧ s'.it.totalOff = here + n ∧
      Copies s.mem s'.mem (range' buf n) (((cells iov).drop here).take n)
  | .write buf buflen =>
    let n := min buflen (size - here)
    s'.out = n ∧ s'.it.totalOff = here + n ∧
      Copies s.mem s'.mem (((cells iov).drop here).take n) (range' buf n)

section Sequences

variable {iov : List Iovec} {fuel : ℕ} {it : Ioviter}

theorem length_cells (iov : List Iovec) : (cells iov).length = (iov.map Iovec.iovLen).sum := by
  rw [cells, length_flatMap]
  simp

theorem foldl_size (iov : List Iovec) (size : ℕ) :
    iov.foldl (fun size v => (size + v.iovLen) % 2 ^ 64) (size % 2 ^ 64) =
      (size + (iov.map Iovec.iovLen).sum) % 2 ^ 64 := by
  induction iov generalizing size with
  | nil => rfl
  | cons v iov ih =>
    rw [foldl_cons, Nat.mod_add_mod, ih, map_cons, sum_cons, Nat.add_assoc]

theorem ioviterSize_eq (h : (iov.map Iovec.iovLen).sum < 2 ^ 64) :
    ioviterSize iov = (cells iov).length := by
  rw [length_cells, ioviterSize, ← Nat.zero_mod (2 ^ 64), foldl_size, Nat.zero_add,
    Nat.mod_eq_of_lt h]

theorem valid_first (hiov : iov ≠ []) (hsz : it.totalSize = (cells iov).length)
    (hfs : it.firstIov = iov) :
    Valid iov { it with currIov := 0, currOff := 0, totalOff := 0 } :=
  ⟨hfs, length_pos_of_ne_nil hiov, Nat.zero_le _, rfl, hsz⟩

theorem Valid.skip (h : Valid iov it) (hfl : iov.length ≤ fuel) (count : ℕ) :
    ∃ it', kioviterSkip fuel it count = some ((cells iov).length - it'.totalOff, it') ∧
      Valid iov it' ∧ it'.totalOff = min (it.totalOff + count) (cells iov).length := by
  obtain ⟨it', hsk, hvl, htt⟩ := @skipLoop_spec iov it count fuel h (by omega)
  rw [hvl.totalSize] at htt
  refine ⟨it', ?_, hvl, htt⟩
  rw [kioviterSkip, hsk, Option.map_some, Ioviter.remaining, hvl.totalSize]

theorem Valid.goto (h : Valid iov it) (hfl : iov.length ≤ fuel) (off : ℕ) :
    ∃ it', kioviterGoto fuel it off = some ((cells iov).length - it'.totalOff, it') ∧
      Valid iov it' ∧ it'.totalOff = min off (cells iov).length := by
  rw [kioviterGoto]
  split_ifs with hof
  · obtain ⟨it', hsk, hvl, htt⟩ := h.skip hfl (off - it.totalOff)
    rw [Nat.add_sub_cancel' hof.le] at htt
    exact ⟨it', hsk, hvl, htt⟩
  · have hfs := valid_first (ne_nil_of_length_pos (Nat.zero_lt_of_lt h.inside))
      h.totalSize h.firstIov
    obtain ⟨it', hsk, hvl, htt⟩ := hfs.skip hfl off
    exact ⟨it', hsk, hvl, htt.trans (by rw [Nat.zero_add])⟩

theorem Valid.next {s : State} (h : Valid iov s.it) (hfl : iov.length ≤ fuel)
    (hnd : (cells iov).Nodup) {r : Request} (hr : Apart iov r) :
    ∃ s', next fuel s r = some s' ∧ Valid iov s'.it ∧ Does iov s r s' := by
  cases r with
  | skip count =>
    obtain ⟨it', hsk, hvl, htt⟩ := h.skip hfl count
    exact ⟨⟨s.mem, it', _⟩, by rw [IovIter.next, hsk]; rfl, hvl, rfl, htt, rfl⟩
  | goto off =>
    obtain ⟨it', hgt, hvl, htt⟩ := h.goto hfl off
    exact ⟨⟨s.mem, it', _⟩, by rw [IovIter.next, hgt]; rfl, hvl, rfl, htt, rfl⟩
  | read buf buflen =>
    obtain ⟨mem', it', hlp, hvl, htt, hcs⟩ := h.transfer false
      (fun mem a b n => copies_kmemcpy mem b a n) hnd hr hfl s.mem rfl
    refine ⟨⟨mem', it', _⟩, ?_, hvl, rfl, htt, hcs⟩
    rw [IovIter.next, kioviterRead, hlp, Option.map_some]
  | write buf buflen =>
    obtain ⟨mem', it', hlp, hvl, htt, hcs⟩ := h.transfer true
      (fun mem a b n => copies_kmemcpy mem a b n) hnd hr hfl s.mem rfl
    refine ⟨⟨mem', it', _⟩, ?_, hvl, rfl, htt, hcs⟩
    rw [IovIter.next, kioviterWrite, hlp, Option.map_some]

end Sequences

/-- The position stays that in the concatenation of the buffers, every call returns, and it moves
exactly the bytes from the position on that fit. -/
theorem iterator_position {iov : List Iovec} (hiov : iov ≠ [])
    (hsize : (iov.map Iovec.iovLen).sum < 2 ^ 64)
    (hdisjoint : iov.Pairwise fun v w => ∀ a ∈ cells [v], a ∉ cells [w])
    {fuel : ℕ} (hfuel : iov.length ≤ fuel) {mem : ℕ → BitVec 8} {s : State}
    (h : Runs.Reaches (next fuel) (fun _ => Apart iov) ⟨mem, kioviterInit iov, 0⟩ s) :
    (s.it.firstIov = iov ∧ s.it.currIov < iov.length ∧ s.it.currOff ≤ s.it.iov.iovLen ∧
      s.it.totalOff = ((iov.take s.it.currIov).map Iovec.iovLen).sum + s.it.currOff) ∧
    ∀ r, Apart iov r → ∃ s', next fuel s r = some s' ∧ Does iov s r s' := by
  have hnd : (cells iov).Nodup := by
    rw [cells, nodup_flatMap]
    refine ⟨fun v _ => nodup_range', hdisjoint.imp fun {v w} hvw a ha ha' => ?_⟩
    apply hvw a
    · rwa [cells_singleton]
    · rwa [cells_singleton]
  have hvl : Valid iov s.it := by
    refine h.invariant (fun s => Valid iov s.it) ?_ fun s r s' hs hr hn => ?_
    · exact @valid_first iov (kioviterInit iov) hiov (ioviterSize_eq hsize) rfl
    · obtain ⟨s₁, hn₁, hvl, -⟩ := hs.next hfuel hnd hr
      obtain rfl : s₁ = s' := Option.some.inj (hn₁.symm.trans hn)
      exact hvl
  refine ⟨⟨hvl.firstIov, hvl.inside, hvl.currOff, ?_⟩, fun r hr => ?_⟩
  · rw [hvl.totalOff, length_cells]
  · obtain ⟨s', hn, -, hds⟩ := hvl.next hfuel hnd hr
    exact ⟨s', hn, hds⟩

def sampleIov : List Iovec := [⟨16, 0⟩, ⟨32, 3⟩, ⟨33, 0⟩, ⟨48, 2⟩, ⟨64, 0⟩]

theorem iterator_position_empty_entries : ∃ s, s.it.totalOff = 4 ∧ s.it.currIov = 3 ∧
    (s.it.firstIov = sampleIov ∧ s.it.currIov < sampleIov.length ∧ s.it.currOff ≤ s.it.iov.iovLen ∧
      s.it.totalOff = ((sampleIov.take s.it.currIov).map Iovec.iovLen).sum + s.it.currOff) ∧
    ∃ s', next 5 s (.write 80 9) = some s' ∧ Does sampleIov s (.write 80 9) s' := by
  have hru : (Runs.run (next 5) (fun _ => Apart sampleIov)
      ⟨fun a => BitVec.ofNat 8 a, kioviterInit sampleIov, 0⟩ [.skip 1, .read 80 3]).map
        (fun s => (s.it.totalOff, s.it.currIov)) = some (4, 3) := by decide +kernel
  obtain ⟨s, hs, hit⟩ := Option.map_eq_some_iff.mp hru
  obtain ⟨htt, hcr⟩ := Prod.mk.inj hit
  have hal := iterator_position (by decide) (by decide) (by decide) (le_refl 5)
    (Runs.run_reaches hs)
  exact ⟨s, htt, hcr, hal.1, hal.2 (.write 80 9) (by decide)⟩

end IovIter
