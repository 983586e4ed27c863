import Mathlib.Data.List.Basic
import Mathlib.Data.List.TakeWhile

/-! # Path resolution

The components of a path, resolution as a fold over them, and partial functions that are applied
until they have no result. -/
namespace PathResolution

open List

section Components

variable {α : Type*} [DecidableEq α] (sep : α)

def components (path : List α) : List (List α) := (path.splitOn sep).filter (· ≠ [])

variable {sep}

@[simp] theorem components_nil : components sep [] = [] := by
  simp [components, List.splitOn]

theorem components_append_sep (l r : List α) :
    components sep (l ++ sep :: r) = components sep l ++ components sep r := by
  simp only [components, List.splitOn]
  rw [splitOnP_append_cons _ _ (by simp), filter_append]

@[simp] theorem components_sep_cons (r : List α) :
    components sep (sep :: r) = components sep r := by
  have h : components sep ([] ++ sep :: r) = components sep [] ++ components sep r :=
    components_append_sep [] r
  simpa using h

variable {l : List α}

theorem components_of_not_mem (h : sep ∉ l) (hne : l ≠ []) : components sep l = [l] := by
  have hfr : ∀ x ∈ l, (x == sep) = false := fun x hx => by
    simpa using fun he : x = sep => h (he ▸ hx)
  simp [components, List.splitOn, splitOnP_eq_singleton hfr, hne]

theorem components_dropWhile (l : List α) :
    components sep (l.dropWhile (· = sep)) = components sep l := by
  induction l with
  | nil => rfl
  | cons x l ih =>
    by_cases hx : x = sep
    · simpa [hx] using ih
    · simp [hx]

theorem components_cons {x : α} (hx : x ≠ sep) :
    components sep (x :: l) = (x :: l).takeWhile (· ≠ sep) ::
      components sep ((x :: l).dropWhile (· ≠ sep)) := by
  have hsp := takeWhile_append_dropWhile (p := fun y => decide (y ≠ sep)) (l := x :: l)
  have hfr : sep ∉ (x :: l).takeWhile (· ≠ sep) := fun hme => by
    simpa using mem_takeWhile_imp hme
  have hne : (x :: l).takeWhile (· ≠ sep) ≠ [] := by simp [hx]
  cases hrs : (x :: l).dropWhile (· ≠ sep) with
  | nil =>
    have hal : (x :: l).takeWhile (· ≠ sep) = x :: l := by rwa [hrs, append_nil] at hsp
    rw [hal] at hfr ⊢
    rw [components_of_not_mem hfr (cons_ne_nil x l), components_nil]
  | cons y r =>
    -- what stops the first component is a separator
    have hy : y = sep := by
      have hhd := List.head?_dropWhile_not (fun y => decide (y ≠ sep)) (x :: l)
      rw [hrs] at hhd
      simpa using hhd
    rw [hrs, hy] at hsp
    calc components sep (x :: l)
        = components sep ((x :: l).takeWhile (· ≠ sep) ++ sep :: r) := by rw [hsp]
      _ = (x :: l).takeWhile (· ≠ sep) :: components sep (y :: r) := by
          rw [components_append_sep, components_of_not_mem hfr hne, hy, components_sep_cons,
            singleton_append]

theorem eq_sep_of_components_nil (h : components sep l = []) : ∀ x ∈ l, x = sep := by
  induction l with
  | nil => simp
  | cons y l ih =>
    by_cases hy : y = sep
    · subst hy
      rw [components_sep_cons] at h
      simpa using ih h
    · simp [components_cons hy] at h

theorem components_seps_append {s : List α} (h : ∀ x ∈ s, x = sep) (l : List α) :
    components sep (s ++ l) = components sep l := by
  induction s with
  | nil => rfl
  | cons x s ih =>
    obtain rfl := h x (by simp)
    rw [cons_append, components_sep_cons]
    exact ih fun y hy => h y (by simp [hy])

end Components

section Resolve

variable {V N E : Type*}

def resolve (step : V → N → Except E V) (start : V) (names : List N) : Except E V :=
  names.foldlM step start

@[simp] theorem resolve_nil (step : V → N → Except E V) (v : V) : resolve step v [] = .ok v := rfl

theorem resolve_cons (step : V → N → Except E V) (v : V) (n : N) (names : List N) :
    resolve step v (n :: names) = (step v n).bind fun w => resolve step w names := rfl

theorem resolve_append (step : V → N → Except E V) (v : V) (l r : List N) :
    resolve step v (l ++ r) = (resolve step v l).bind fun w => resolve step w r :=
  foldlM_append

end Resolve

section Exhaust

variable {V : Type*} (f : V → Option V)

def exhaust : ℕ → V → V
  | 0, v => v
  | fuel + 1, v =>
    match f v with
    | none => v
    | some w => exhaust fuel w

variable {f} {v : V}

theorem exhaust_of_none (h : f v = none) (fuel : ℕ) : exhaust f fuel v = v := by
  cases fuel <;> simp [exhaust, h]

theorem exhaust_end (m : V → ℕ) (hm : ∀ v w, f v = some w → m w < m v) {fuel : ℕ}
    (h : m v ≤ fuel) : f (exhaust f fuel v) = none := by
  induction fuel generalizing v with
  | zero =>
    rw [exhaust]
    cases hv : f v with
    | none => rfl
    | some w => exact absurd (hm v w hv) (by omega)
  | succ fuel ih =>
    rw [exhaust]
    cases hv : f v with
    | none => exact hv
    | some w => exact ih (by have := hm v w hv; omega)

theorem exhaust_invariant (P : V → Prop) (hP : ∀ v w, P v → f v = some w → P w) (fuel : ℕ)
    (hv : P v) : P (exhaust f fuel v) := by
  induction fuel generalizing v with
  | zero => exact hv
  | succ fuel ih =>
    rw [exhaust]
    cases hf : f v with
    | none => exact hv
    | some w => exact ih (hP v w hv hf)

theorem exhaust_congr {g : V → Option V} (P : V → Prop) (hP : ∀ v w, P v → f v = some w → P w)
    (h : ∀ v, P v → g v = f v) (fuel : ℕ) (hv : P v) :
    exhaust g fuel v = exhaust f fuel v := by
  induction fuel generalizing v with
  | zero => rfl
  | succ fuel ih =>
    rw [exhaust, exhaust, h v hv]
    cases hf : f v with
    | none => rfl
    | some w => exact ih (hP v w hv hf)

end Exhaust

end PathResolution
