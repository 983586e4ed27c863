import Mathlib.Algebra.Order.BigOperators.Group.Finset

/-! # Reference counts

Objects with a counter each, against the multiset of the references to them that exist. An object
is freed when its counter comes to zero. -/
namespace References

open Multiset

variable {α : Type*} [DecidableEq α] {num : α → ℕ} {freed : α → Bool} {refs refs' : Multiset α}
  {a : α}

structure Counts (num : α → ℕ) (freed : α → Bool) (refs : Multiset α) : Prop where
  num_eq : ∀ a, num a = refs.count a
  freed_iff : ∀ a, freed a = true ↔ a ∉ refs

section

variable (h : Counts num freed refs)

include h

theorem Counts.unique (h' : Counts num freed refs') : refs = refs' :=
  ext.2 fun a => (h.num_eq a).symm.trans (h'.num_eq a)

theorem Counts.iff_eq : Counts num freed refs' ↔ refs' = refs :=
  ⟨fun h' => h'.unique h, fun heq => heq ▸ h⟩

theorem Counts.acquire (ha : a ∈ refs) :
    Counts (Function.update num a (num a + 1)) freed (a ::ₘ refs) := by
  constructor
  · intro b
    by_cases hb : b = a
    · subst hb
      simp [h.num_eq]
    · simp [hb, h.num_eq]
  · intro b
    have hme : b ∈ a ::ₘ refs ↔ b ∈ refs := by
      rw [mem_cons, or_iff_right_of_imp]
      rintro rfl
      exact ha
    rw [hme]
    exact h.freed_iff b

theorem Counts.create (ha : a ∉ refs) :
    Counts (Function.update num a 1) (Function.update freed a false) (a ::ₘ refs) := by
  constructor
  · intro b
    by_cases hb : b = a
    · subst hb
      simp [count_eq_zero_of_notMem ha]
    · simp [hb, h.num_eq]
  · intro b
    by_cases hb : b = a
    · simp [hb]
    · simp [hb, h.freed_iff]

end

theorem Counts.drop (h : Counts num freed (a ::ₘ refs)) : Counts (Function.update num a (num a - 1))
      (Function.update freed a (decide (num a - 1 = 0))) refs := by
  have hnm : num a = refs.count a + 1 := by simp [h.num_eq]
  constructor
  · intro b
    by_cases hb : b = a
    · simp [hb, hnm]
    · simp [hb, h.num_eq]
  · intro b
    by_cases hb : b = a
    · simp [hb, hnm]
    · simp [hb, h.freed_iff]

theorem Counts.le_card (h : Counts num freed refs) (a : α) : num a ≤ card refs :=
  (h.num_eq a).trans_le (count_le_card a refs)

section Table

variable {α ι M : Type*}

def ofOption : Option α → Multiset α
  | none => 0
  | some a => {a}

@[simp] theorem ofOption_none : ofOption (none : Option α) = 0 := rfl

@[simp] theorem ofOption_some (a : α) : ofOption (some a) = {a} := rfl

theorem add_ofOption_some (refs : Multiset α) (a : α) : refs + ofOption (some a) = a ::ₘ refs := by
  rw [ofOption_some, add_comm, singleton_add]

theorem ofOption_eq_zero {o : Option α} : ofOption o = 0 ↔ o = none := by
  cases o <;> simp

theorem card_ofOption_le (o : Option α) : card (ofOption o) ≤ 1 := by
  cases o <;> simp

theorem card_sum_ofOption_le (os : List (Option α)) : card (os.map ofOption).sum ≤ os.length := by
  induction os with
  | nil => simp
  | cons o os ih =>
    have := card_ofOption_le o
    simp only [List.map_cons, List.sum_cons, card_add, List.length_cons]
    omega

theorem card_sum_range_le (o : ℕ → Option α) (n : ℕ) :
    card (∑ i ∈ Finset.range n, ofOption (o i)) ≤ n := by
  induction n with
  | zero => simp
  | succ n ih =>
    have := card_ofOption_le (o n)
    rw [Finset.sum_range_succ, card_add]
    omega

theorem exists_sum_eq_add [AddCommMonoid M] [DecidableEq ι] {s : Finset ι} {i : ι} (hi : i ∈ s)
    (f : ι → M) : ∃ rest, ∑ j ∈ s, f j = rest + f i ∧
      ∀ g : ι → M, (∀ j, j ≠ i → g j = f j) → ∑ j ∈ s, g j = rest + g i := by
  refine ⟨∑ j ∈ s.erase i, f j, (Finset.sum_erase_add s f hi).symm, fun g hg => ?_⟩
  rw [← Finset.sum_erase_add s g hi]
  congr 1
  apply Finset.sum_congr rfl
  intro j hj
  exact hg j (Finset.ne_of_mem_erase hj)

end Table

end References
