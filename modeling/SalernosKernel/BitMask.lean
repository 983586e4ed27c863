import Mathlib.Data.List.FinRange

/-! # Bit masks as sets

Words whose bits say which of their positions belong to a set. -/
namespace BitMask

variable {w : ℕ}

def Has (m : BitVec w) (i : Fin w) : Prop := m.getLsbD i = true
  deriving Decidable

def insert (m : BitVec w) (i : Fin w) : BitVec w := m ||| (1#w <<< i.val)

def erase (m : BitVec w) (i : Fin w) : BitVec w := m &&& ~~~(1#w <<< i.val)

def lowest (m : BitVec w) : Option (Fin w) := (List.finRange w).find? fun i => m.getLsbD i

variable {m m' : BitVec w} {i j : Fin w}

theorem getLsbD_one_shift (i j : Fin w) : (1#w <<< i.val).getLsbD j = decide (j = i) := by
  by_cases h : j = i
  · subst h
    simp
  · have hne : j.val ≠ i.val := fun heq => h (Fin.ext heq)
    simp [h]
    omega

@[simp] theorem has_zero : ¬ Has (0#w) i := by simp [Has]

@[simp] theorem has_insert : Has (insert m i) j ↔ j = i ∨ Has m j := by
  rw [Has, insert, BitVec.getLsbD_or, getLsbD_one_shift, Bool.or_eq_true, decide_eq_true_eq, or_comm]
  rfl

@[simp] theorem has_erase : Has (erase m i) j ↔ j ≠ i ∧ Has m j := by
  have hnt : (~~~(1#w <<< i.val)).getLsbD j = decide (j ≠ i) := by
    rw [BitVec.getLsbD_not, getLsbD_one_shift]
    simp
  rw [Has, erase, BitVec.getLsbD_and, hnt, Bool.and_eq_true, decide_eq_true_eq, and_comm]
  rfl

@[simp] theorem has_or : Has (m ||| m') i ↔ Has m i ∨ Has m' i := by simp [Has]

@[simp] theorem has_and : Has (m &&& m') i ↔ Has m i ∧ Has m' i := by simp [Has]

@[simp] theorem has_not : Has (~~~m) i ↔ ¬ Has m i := by simp [Has]

theorem lowest_eq_none : lowest m = none ↔ ∀ i, ¬ Has m i := by
  simp [lowest, Has]

theorem lowest_eq_some : lowest m = some i ↔ Has m i ∧ ∀ j < i, ¬ Has m j := by
  unfold lowest
  rw [List.find?_eq_some_iff_getElem]
  constructor
  · rintro ⟨hi, n, hn, heq, hbf⟩
    refine ⟨hi, fun j hj hhas => ?_⟩
    have hvl : i.val = n := by
      rw [← heq, List.getElem_finRange]
      rfl
    have hnt := hbf j.val ((Fin.lt_def.mp hj).trans_eq hvl)
    simp only [List.getElem_finRange, Fin.val_cast, Bool.not_eq_true'] at hnt
    exact absurd (hnt.symm.trans hhas) (by simp)
  · rintro ⟨hi, hbf⟩
    refine ⟨hi, i.val, by simp, by simp, fun j hj => ?_⟩
    have := hbf ⟨j, hj.trans i.isLt⟩ hj
    simpa [Has] using this

end BitMask
