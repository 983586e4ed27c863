import Mathlib.Order.Nat

/-! # Runs of a guarded partial transition function

`next` computes a step and fails where the program stops; `ok` says which events are allowed
in a state. -/
namespace Runs

variable {S E : Type*}

inductive Reaches (next : S → E → Option S) (ok : S → E → Prop) (s₀ : S) : S → Prop where
  | start : Reaches next ok s₀ s₀
  | step {s s' : S} {e : E} :
      Reaches next ok s₀ s → ok s e → next s e = some s' → Reaches next ok s₀ s'

variable {next : S → E → Option S} {ok ok' : S → E → Prop} {s₀ s s' : S}

/-- What holds at the start and over each step holds in every reached state. -/
theorem Reaches.invariant (h : Reaches next ok s₀ s) (I : S → Prop) (h₀ : I s₀)
    (hst : ∀ s e s', I s → ok s e → next s e = some s' → I s') : I s := by
  induction h with
  | start => exact h₀
  | step _ hok hn ih => exact hst _ _ _ ih hok hn

theorem Reaches.trans (h : Reaches next ok s₀ s) (h' : Reaches next ok s s') :
    Reaches next ok s₀ s' := by
  induction h' with
  | start => exact h
  | step _ hok hn ih => exact .step ih hok hn

theorem Reaches.mono (h : Reaches next ok s₀ s) (hok : ∀ s e, ok s e → ok' s e) :
    Reaches next ok' s₀ s := by
  induction h with
  | start => exact .start
  | step _ hs hn ih => exact .step ih (hok _ _ hs) hn

/-- Steps that use up a budget lead to a state with none. -/
theorem exists_reaches_terminal (m : S → ℕ)
    (hst : ∀ s e s', ok s e → next s e = some s' → m s' < m s) (s : S) :
    ∃ s', Reaches next ok s s' ∧ ∀ e, ok s' e → next s' e = none := by
  induction hk : m s using Nat.strong_induction_on generalizing s with
  | _ k ih =>
    by_cases hed : ∀ e, ok s e → next s e = none
    · exact ⟨s, .start, hed⟩
    · push Not at hed
      obtain ⟨e, hok, hn⟩ := hed
      obtain ⟨s₁, hs₁⟩ := Option.ne_none_iff_exists'.mp hn
      obtain ⟨s', hr, hs'⟩ := ih (m s₁) (hk ▸ hst s e s₁ hok hs₁) s₁ rfl
      exact ⟨s', (Reaches.step .start hok hs₁).trans hr, hs'⟩

/-- A trace with its guards checked on the way. -/
def run (next : S → E → Option S) (ok : S → E → Prop) [∀ s e, Decidable (ok s e)] :
    S → List E → Option S
  | s, [] => some s
  | s, e :: es => if ok s e then (next s e).bind fun s' => run next ok s' es else none

theorem run_reaches [∀ s e, Decidable (ok s e)] {es : List E} (h : run next ok s₀ es = some s) :
    Reaches next ok s₀ s := by
  induction es generalizing s₀ with
  | nil =>
    obtain rfl : s₀ = s := by simpa [run] using h
    exact .start
  | cons e es ih =>
    rw [run] at h
    split at h
    · obtain ⟨s₁, hn, hr⟩ := Option.bind_eq_some_iff.mp h
      exact (Reaches.step .start ‹_› hn).trans (ih hr)
    · simp at h

theorem foldlM_invariant {f : S → E → Option S} {es : List E} (I : S → Prop) (h₀ : I s₀)
    (hst : ∀ s e s', e ∈ es → I s → f s e = some s' → I s')
    (h : es.foldlM f s₀ = some s) : I s := by
  induction es generalizing s₀ with
  | nil =>
    obtain rfl : s₀ = s := by simpa using h
    exact h₀
  | cons e es ih =>
    rw [List.foldlM_cons] at h
    obtain ⟨s₁, hs₁, h⟩ := Option.bind_eq_some_iff.mp h
    exact ih (hst _ e _ List.mem_cons_self h₀ hs₁)
      (fun s e' s' he => hst s e' s' (List.mem_cons_of_mem _ he)) h

theorem foldlM_simulates {T : Type*} {f : S → E → Option S} {g : T → E → Option T}
    (R : S → T → Prop)
    (hst : ∀ s a e a', R s a → g a e = some a' → ∃ s', f s e = some s' ∧ R s' a') {es : List E}
    {a a' : T} (h : R s a) (hg : es.foldlM g a = some a') :
    ∃ s', es.foldlM f s = some s' ∧ R s' a' := by
  induction es generalizing s a with
  | nil => exact ⟨s, rfl, Option.some.inj hg ▸ h⟩
  | cons e es ih =>
    rw [List.foldlM_cons] at hg
    obtain ⟨a₁, ha₁, hg⟩ := Option.bind_eq_some_iff.mp hg
    obtain ⟨s₁, hs₁, h₁⟩ := hst s a e a₁ h ha₁
    rw [List.foldlM_cons, hs₁]
    exact ih h₁ hg

theorem foldl_range_invariant {f : S → ℕ → S} {n : ℕ} (I : ℕ → S → Prop) (h₀ : I 0 s₀)
    (hst : ∀ i s, I i s → I (i + 1) (f s i)) : I n ((List.range n).foldl f s₀) := by
  induction n with
  | zero => exact h₀
  | succ n ih =>
    rw [List.range_succ, List.foldl_append]
    exact hst n _ ih

/-- How many of `k`, `k + 1`, … have `P`, up to `rounds` of them. -/
def runLength (P : ℕ → Prop) [DecidablePred P] : ℕ → ℕ → ℕ
  | 0, _ => 0
  | rounds + 1, k => if P k then runLength P rounds (k + 1) + 1 else 0

section RunLength

variable {P : ℕ → Prop} [DecidablePred P] {rounds k i : ℕ}

theorem runLength_le : runLength P rounds k ≤ rounds := by
  induction rounds generalizing k with
  | zero => exact le_rfl
  | succ rounds ih =>
    rw [runLength]
    split
    · exact Nat.succ_le_succ ih
    · exact Nat.zero_le _

theorem runLength_holds (h : i < runLength P rounds k) : P (k + i) := by
  induction rounds generalizing k i with
  | zero => simp [runLength] at h
  | succ rounds ih =>
    rw [runLength] at h
    split at h
    · cases i with
      | zero => assumption
      | succ i =>
        have := ih (Nat.lt_of_succ_lt_succ h)
        rwa [Nat.add_right_comm, Nat.add_assoc] at this
    · simp at h

theorem runLength_stops (h : runLength P rounds k < rounds) : ¬ P (k + runLength P rounds k) := by
  induction rounds generalizing k with
  | zero => simp at h
  | succ rounds ih =>
    rw [runLength] at h ⊢
    split
    · rw [if_pos ‹_›] at h
      have := ih (Nat.lt_of_succ_lt_succ h)
      rwa [Nat.add_right_comm, Nat.add_assoc] at this
    · assumption

theorem runLength_unique {j : ℕ} (hj : j ≤ rounds) (hal : ∀ i < j, P (k + i))
    (hed : j < rounds → ¬ P (k + j)) : runLength P rounds k = j := by
  apply le_antisymm
  · by_contra hlt
    have hlt := Nat.lt_of_not_le hlt
    exact hed (hlt.trans_le runLength_le) (runLength_holds hlt)
  · by_contra hlt
    have hlt := Nat.lt_of_not_le hlt
    exact runLength_stops (hlt.trans_le hj) (hal _ hlt)

theorem runLength_congr {Q : ℕ → Prop} [DecidablePred Q]
    (h : ∀ i < rounds, P (k + i) ↔ Q (k + i)) : runLength P rounds k = runLength Q rounds k := by
  apply runLength_unique runLength_le
  · intro i hi
    exact (h i (hi.trans_le runLength_le)).mpr (runLength_holds hi)
  · intro hlt hP
    exact runLength_stops hlt ((h _ hlt).mp hP)

end RunLength

end Runs
