import Mathlib.Algebra.Order.BigOperators.Group.Finset
import Mathlib.Algebra.Order.Ring.Nat

/-! # Queues of waiting parties

Every party has a status in `m`; a queue lists those whose status satisfies `p`, each once. -/
namespace WaitQueue

open Finset

variable {T M : Type*}

structure Listed (q : List T) (m : T → M) (p : M → Prop) : Prop where
  nodup : q.Nodup
  mem_iff : ∀ t, t ∈ q ↔ p (m t)

theorem listed_nil {m : T → M} {p : M → Prop} (h : ∀ t, ¬ p (m t)) : Listed [] m p :=
  ⟨List.nodup_nil, fun t => ⟨fun ht => absurd ht List.not_mem_nil, fun ht => absurd ht (h t)⟩⟩

section Update

variable [DecidableEq T] {q : List T} {m : T → M} {p : M → Prop} {t : T} {x : M}

theorem Listed.update (h : Listed q m p) (hx : p x ↔ p (m t)) :
    Listed q (Function.update m t x) p := by
  refine ⟨h.nodup, fun u => ?_⟩
  by_cases hu : u = t
  · rw [hu, Function.update_self, hx]
    exact h.mem_iff t
  · rw [Function.update_of_ne hu]
    exact h.mem_iff u

theorem Listed.enqueue (h : Listed q m p) (ht : ¬ p (m t)) (hx : p x) :
    Listed (q ++ [t]) (Function.update m t x) p := by
  have hnt : t ∉ q := fun hme => ht ((h.mem_iff t).mp hme)
  refine ⟨List.nodup_append.mpr ⟨h.nodup, List.nodup_singleton t, ?_⟩, fun u => ?_⟩
  · rintro a ha b hb rfl
    exact hnt (List.mem_singleton.mp hb ▸ ha)
  · rw [List.mem_append, List.mem_singleton, h.mem_iff]
    by_cases hu : u = t
    · rw [hu, Function.update_self]
      exact ⟨fun _ => hx, fun _ => .inr rfl⟩
    · rw [Function.update_of_ne hu]
      exact ⟨fun h => h.resolve_right hu, .inl⟩

theorem Listed.erase (h : Listed q m p) (hx : ¬ p x) :
    Listed (q.erase t) (Function.update m t x) p := by
  refine ⟨h.nodup.erase t, fun u => ?_⟩
  rw [h.nodup.mem_erase_iff, h.mem_iff]
  by_cases hu : u = t
  · rw [hu, Function.update_self]
    exact ⟨fun h => absurd rfl h.1, fun h => absurd h hx⟩
  · rw [Function.update_of_ne hu]
    exact ⟨And.right, fun h => ⟨hu, h⟩⟩

theorem Listed.dequeue (h : Listed (t :: q) m p) (hx : ¬ p x) :
    Listed q (Function.update m t x) p := by
  have her := h.erase (t := t) hx
  rwa [List.erase_cons_head] at her

end Update

section Tally

variable [Fintype T]

def tally (f : M → ℕ) (m : T → M) : ℕ := ∑ t, f (m t)

theorem tally_update [DecidableEq T] (f : M → ℕ) (m : T → M) (t : T) (x : M) :
    tally f (Function.update m t x) + f (m t) = tally f m + f x := by
  rw [tally, tally, ← add_sum_erase _ _ (mem_univ t),
    ← add_sum_erase _ (fun u => f (m u)) (mem_univ t), Function.update_self]
  have hrs : ∑ u ∈ Finset.univ.erase t, f (Function.update m t x u) =
      ∑ u ∈ Finset.univ.erase t, f (m u) := by
    refine sum_congr rfl fun u hu => ?_
    rw [Function.update_of_ne (ne_of_mem_erase hu)]
  rw [hrs]
  omega

theorem tally_congr {f : M → ℕ} {m m' : T → M} (h : ∀ t, f (m' t) = f (m t)) :
    tally f m' = tally f m := sum_congr rfl fun t _ => h t

theorem le_tally (f : M → ℕ) (m : T → M) (t : T) : f (m t) ≤ tally f m := by
  rw [tally]
  exact single_le_sum (f := fun t => f (m t)) (fun _ _ => Nat.zero_le _) (mem_univ t)

theorem exists_of_tally_pos {f : M → ℕ} {m : T → M} (h : 0 < tally f m) : ∃ t, 0 < f (m t) := by
  obtain ⟨t, -, ht⟩ := exists_ne_zero_of_sum_ne_zero h.ne'
  exact ⟨t, pos_of_ne_zero ht⟩

theorem add_le_tally [DecidableEq T] (f : M → ℕ) (m : T → M) {t u : T} (h : t ≠ u) :
    f (m t) + f (m u) ≤ tally f m := by
  rw [tally, ← add_sum_erase _ _ (mem_univ t)]
  exact Nat.add_le_add_left (single_le_sum (f := fun u => f (m u)) (fun _ _ => Nat.zero_le _)
    (mem_erase.mpr ⟨h.symm, mem_univ u⟩)) _

end Tally

end WaitQueue
