import Mathlib.Data.List.Range

/-! # Ranges cut at page boundaries

A loop over the positions from `cur` to `stop` that goes to the next multiple of the page size in
each round: between two cuts all positions are in one page. -/
namespace PageCuts

def nextCut (B cur stop : ℕ) : ℕ := min (cur / B * B + B) stop

variable {B cur stop i : ℕ}

theorem lt_nextCut (hB : 0 < B) (h : cur < stop) : cur < nextCut B cur stop := by
  refine lt_min ?_ h
  have hdv := Nat.div_add_mod cur B
  have hmd := Nat.mod_lt cur hB
  have hcm := Nat.mul_comm B (cur / B)
  omega

theorem nextCut_le : nextCut B cur stop ≤ stop := min_le_right _ _

theorem div_of_mem_piece (hB : 0 < B) (h₁ : cur ≤ i) (h₂ : i < nextCut B cur stop) :
    i / B = cur / B := by
  have hlt : i < cur / B * B + B := lt_of_lt_of_le h₂ (min_le_left _ _)
  refine le_antisymm (Nat.lt_succ_iff.mp ?_) (Nat.div_le_div_right h₁)
  rw [Nat.div_lt_iff_lt_mul hB, Nat.succ_mul]
  exact hlt

theorem mod_of_mem_piece (hB : 0 < B) (h₁ : cur ≤ i) (h₂ : i < nextCut B cur stop) :
    i % B = cur % B + (i - cur) := by
  have hdv := div_of_mem_piece hB h₁ h₂
  have hi := Nat.div_add_mod i B
  have hcr := Nat.div_add_mod cur B
  rw [hdv] at hi
  omega

theorem cut_induction (hB : 0 < B) (stop : ℕ) {P : ℕ → ℕ → Prop}
    (hdn : ∀ fuel cur, stop ≤ cur → P fuel cur)
    (hrn : ∀ fuel cur, cur < stop → P fuel (nextCut B cur stop) → P (fuel + 1) cur) :
    ∀ fuel cur, stop - cur ≤ fuel → P fuel cur := by
  intro fuel
  induction fuel with
  | zero => exact fun cur h => hdn 0 cur (by omega)
  | succ fuel ih =>
    intro cur h
    rcases lt_or_ge cur stop with hlt | hge
    · have hct := lt_nextCut hB hlt
      exact hrn fuel cur hlt (ih _ (by omega))
    · exact hdn (fuel + 1) cur hge

end PageCuts
