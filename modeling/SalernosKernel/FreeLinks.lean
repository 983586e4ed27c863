import Mathlib.Order.Nat

/-! # Lists threaded through their elements

`next` is the link stored in an element, and the list begins at `head`. -/
namespace FreeLinks

variable {α : Type*}

def Linked (next : α → Option α) : Option α → List α → Prop
  | head, [] => head = none
  | head, p :: l => head = some p ∧ Linked next (next p) l

theorem Linked.congr {next next' : α → Option α} {head : Option α} {l : List α}
    (h : Linked next head l) (hsm : ∀ p ∈ l, next' p = next p) : Linked next' head l := by
  induction l generalizing head with
  | nil => exact h
  | cons p l ih =>
    refine ⟨h.1, ?_⟩
    rw [hsm p List.mem_cons_self]
    exact ih h.2 fun q hq => hsm q (List.mem_cons_of_mem p hq)

end FreeLinks
