import Mathlib.Algebra.Order.Ring.Nat
import Mathlib.Data.List.Basic

/-! # Memory by the byte

Addresses are words that wrap around. A stack that grows down is one list of bytes, and a push puts
more bytes in front of it. -/
namespace ByteMemory

open List
open BitVec (ofNat ofNat_add toNat_ofNat)

variable {w : ℕ} {m : BitVec w → UInt8} {p : BitVec w} {xs ys : List UInt8}

def write (m : BitVec w → UInt8) (p : BitVec w) (xs : List UInt8) : BitVec w → UInt8 :=
  fun a => (xs[(a - p).toNat]?).getD (m a)

def Holds (m : BitVec w → UInt8) (p : BitVec w) (xs : List UInt8) : Prop :=
  ∀ k < xs.length, xs[k]? = some (m (p + ofNat w k))

def word (x : BitVec 64) : List UInt8 :=
  (range 8).map fun k => UInt8.ofBitVec (x.extractLsb' (8 * k) 8)

@[simp] theorem length_word (x : BitVec 64) : (word x).length = 8 := by simp [word]

theorem length_flatMap_word (l : List (BitVec 64)) : (l.flatMap word).length = 8 * l.length := by
  induction l with
  | nil => rfl
  | cons x l ih =>
    rw [flatMap_cons, length_append, length_word, ih, length_cons]
    omega

theorem sub_toNat {k : ℕ} (hk : k < 2 ^ w) : (p + ofNat w k - p).toNat = k := by
  rw [BitVec.add_comm, BitVec.add_sub_cancel, toNat_ofNat, Nat.mod_eq_of_lt hk]

theorem holds_nil : Holds m p [] := fun _ h => absurd h (Nat.not_lt_zero _)

theorem holds_append : Holds m p (xs ++ ys) ↔
    Holds m p xs ∧ Holds m (p + ofNat w xs.length) ys := by
  constructor
  · intro h
    constructor
    · intro k hk
      have hby := h k (by rw [length_append]; omega)
      rwa [getElem?_append_left hk] at hby
    · intro k hk
      have hby := h (xs.length + k) (by rw [length_append]; omega)
      rw [getElem?_append_right (by omega), Nat.add_sub_cancel_left] at hby
      rwa [BitVec.add_assoc, ← ofNat_add]
  · rintro ⟨hxs, hys⟩ k hk
    rw [length_append] at hk
    rcases Nat.lt_or_ge k xs.length with hlt | hge
    · rw [getElem?_append_left hlt]
      exact hxs k hlt
    · rw [getElem?_append_right hge, hys (k - xs.length) (by omega), BitVec.add_assoc,
        ← ofNat_add, Nat.add_sub_cancel' hge]

@[simp] theorem write_nil (m : BitVec w → UInt8) (p : BitVec w) : write m p [] = m := by
  funext a
  simp [write]

variable {x : UInt8}

theorem Holds.head (h : Holds m p (x :: xs)) : m p = x := by
  have hby := h 0 (Nat.zero_lt_succ _)
  simpa using hby.symm

theorem holds_write (h : xs.length ≤ 2 ^ w) : Holds (write m p xs) p xs := by
  intro k hk
  rw [write, sub_toNat (lt_of_lt_of_le hk h), getElem?_eq_getElem hk, Option.getD_some]

theorem Holds.write (h : Holds m (p + ofNat w xs.length) ys)
    (hln : xs.length + ys.length ≤ 2 ^ w) :
    Holds (write m p xs) (p + ofNat w xs.length) ys := by
  intro k hk
  rw [h k hk, ByteMemory.write, BitVec.add_assoc, ← ofNat_add, sub_toNat (by omega),
    List.getElem?_eq_none (by omega), Option.getD_none]

theorem Holds.push (h : Holds m p ys) (hln : xs.length + ys.length ≤ 2 ^ w) :
    Holds (ByteMemory.write m (p - ofNat w xs.length) xs) (p - ofNat w xs.length) (xs ++ ys) := by
  have hbc : p - ofNat w xs.length + ofNat w xs.length = p := BitVec.sub_add_cancel _ _
  refine holds_append.mpr ⟨holds_write (by omega), ?_⟩
  exact Holds.write (hbc.symm ▸ h) hln

theorem Holds.skip (h : Holds m p ys) (n : ℕ) : ∃ xs : List UInt8, xs.length = n ∧
    Holds m (p - ofNat w n) (xs ++ ys) := by
  refine ⟨(range n).map fun k => m (p - ofNat w n + ofNat w k), by simp, ?_⟩
  refine holds_append.mpr ⟨fun k hk => ?_, ?_⟩
  · have hk' : k < n := by simpa using hk
    simp [hk']
  · rwa [length_map, length_range, BitVec.sub_add_cancel]

theorem Holds.length_le (hxs : Holds m p (xs ++ [x])) (hys : Holds m p (ys ++ [x]))
    (hx : x ∉ xs) : xs.length ≤ ys.length := by
  by_contra hlt
  have hfs := hxs ys.length (by rw [length_append]; omega)
  have hsc := hys ys.length (by rw [length_append, length_singleton]; omega)
  rw [getElem?_append_left (by omega)] at hfs
  rw [getElem?_append_right (Nat.le_refl _), Nat.sub_self, getElem?_cons_zero] at hsc
  rw [← hsc] at hfs
  exact hx (mem_of_getElem? hfs)

theorem Holds.terminated_unique (hxs : Holds m p (xs ++ [x]))
    (hys : Holds m p (ys ++ [x])) (hx : x ∉ xs) (hy : x ∉ ys) : xs = ys := by
  have hle := hxs.length_le hys hx
  have hge := hys.length_le hxs hy
  apply ext_getElem? 
  intro k
  rcases lt_or_ge k xs.length with hlt | hge'
  · rw [(holds_append.mp hxs).1 k hlt, (holds_append.mp hys).1 k (by omega)]
  · rw [getElem?_eq_none hge', getElem?_eq_none (by omega)]

structure Stacked (e : BitVec w) (m : BitVec w → UInt8) (p : BitVec w) (xs : List UInt8) : Prop where
  pointer : p = e - ofNat w xs.length
  holds : Holds m p xs

theorem sub_sub_ofNat (p : BitVec w) (k n : ℕ) :
    p - ofNat w k - ofNat w n = p - ofNat w (n + k) := by
  rw [ofNat_add, BitVec.sub_eq_add_neg, BitVec.sub_eq_add_neg, BitVec.sub_eq_add_neg,
    BitVec.neg_add, BitVec.sub_eq_add_neg, BitVec.add_assoc, BitVec.add_comm (-_)]

theorem stacked_nil (e : BitVec w) (m : BitVec w → UInt8) : Stacked e m e [] :=
  ⟨by simp, holds_nil⟩

variable {a e q : BitVec w}

theorem Stacked.push (h : Stacked e m p ys) (hln : xs.length + ys.length ≤ 2 ^ w)
    (hq : q = p - ofNat w xs.length) : Stacked e (ByteMemory.write m q xs) q (xs ++ ys) := by
  subst hq
  refine ⟨?_, h.holds.push hln⟩
  rw [h.pointer, sub_sub_ofNat, length_append]

theorem Stacked.skip (h : Stacked e m p ys) {n : ℕ} (hq : q = p - ofNat w n) :
    ∃ xs : List UInt8, xs.length = n ∧ Stacked e m q (xs ++ ys) := by
  subst hq
  obtain ⟨xs, hxs, hhl⟩ := h.holds.skip n
  refine ⟨xs, hxs, ?_, hhl⟩
  rw [h.pointer, sub_sub_ofNat, length_append, hxs]

def readWord (m : BitVec 64 → UInt8) (p : BitVec 64) : BitVec 64 :=
  ofNat 64 ((range 8).foldr (fun k n => (m (p + ofNat 64 k)).toNat + 256 * n) 0)

theorem Holds.readWord_eq {m : BitVec 64 → UInt8} {p x : BitVec 64} (h : Holds m p (word x)) :
    readWord m p = x := by
  have hby : ∀ k < 8, (m (p + ofNat 64 k)).toNat = x.toNat / 2 ^ (8 * k) % 256 := by
    intro k hk
    have hk' := h k (by rwa [length_word])
    rw [word, getElem?_map, getElem?_range hk] at hk'
    rw [← Option.some.inj hk']
    simp [BitVec.extractLsb'_toNat, Nat.shiftRight_eq_div_pow]
  have hlt := x.isLt
  have hrn : range 8 = [0, 1, 2, 3, 4, 5, 6, 7] := rfl
  apply BitVec.eq_of_toNat_eq
  rw [readWord, hrn, toNat_ofNat]
  simp only [foldr, hby 0 (by omega), hby 1 (by omega), hby 2 (by omega),
    hby 3 (by omega), hby 4 (by omega), hby 5 (by omega), hby 6 (by omega),
    hby 7 (by omega)]
  omega

theorem readWord_congr {m m' : BitVec 64 → UInt8} {p : BitVec 64}
    (h : ∀ k < 8, m' (p + ofNat 64 k) = m (p + ofNat 64 k)) :
    readWord m' p = readWord m p := by
  rw [readWord, readWord]
  apply congrArg (ofNat 64)
  apply foldr_ext
  intro k hk n
  rw [h k (mem_range.mp hk)]

abbrev Store (w : ℕ) := BitVec w × List UInt8

def writeAll (m : BitVec w → UInt8) (l : List (Store w)) : BitVec w → UInt8 :=
  l.foldl (fun m c => write m c.1 c.2) m

def Spares (c d : Store w) : Prop :=
  ∀ k < c.2.length, d.2.length ≤ (c.1 + ofNat w k - d.1).toNat

theorem write_of_le (h : xs.length ≤ (a - p).toNat) : write m p xs a = m a := by
  rw [write, getElem?_eq_none h, Option.getD_none]

variable {l : List (Store w)}

theorem writeAll_of_forall_le
    (h : ∀ c ∈ l, c.2.length ≤ (a - c.1).toNat) : writeAll m l a = m a := by
  induction l generalizing m with
  | nil => rfl
  | cons c l ih =>
    rw [forall_mem_cons] at h
    exact (ih h.2).trans (write_of_le h.1)

theorem holds_writeAll (h : l.Pairwise Spares) {c : Store w} (hc : c ∈ l)
    (hln : c.2.length ≤ 2 ^ w) : Holds (writeAll m l) c.1 c.2 := by
  induction l generalizing m with
  | nil => cases hc
  | cons d l ih =>
    rw [pairwise_cons] at h
    rcases mem_cons.mp hc with rfl | hc
    · intro k hk
      rw [holds_write hln k hk]
      exact congrArg some (writeAll_of_forall_le fun d hd => h.1 d hd k hk).symm
    · exact ih h.2 hc

theorem spares_of_offsets {p : BitVec 64} {i j : ℕ} (h : i + xs.length ≤ j ∨ j + ys.length ≤ i)
    (hi : i + xs.length ≤ 2 ^ 64) (hj : j + ys.length ≤ 2 ^ 64) :
    Spares (p + ofNat 64 i, xs) (p + ofNat 64 j, ys) := by
  intro k hk
  dsimp only at hk ⊢
  simp only [BitVec.toNat_sub, BitVec.toNat_add, toNat_ofNat]
  omega

end ByteMemory
