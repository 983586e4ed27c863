import Mathlib.Algebra.BigOperators.Fin

/-! # Sparse tables of fixed depth

A table of depth `n + 1` has `m` slots, each empty or labelled and leading to a table of depth
`n`; a table of depth `0` holds values. A value is found along a path of slot numbers. -/
namespace RadixTable

open Function (update)

inductive Path (m : ℕ) : ℕ → Type where
  | last (i : Fin m) : Path m 0
  | step {n : ℕ} (i : Fin m) (p : Path m n) : Path m (n + 1)
  deriving DecidableEq

inductive Table (m : ℕ) (N α : Type) : ℕ → Type where
  | leaf (val : Fin m → α) : Table m N α 0
  | node {n : ℕ} (slot : Fin m → Option N) (child : Fin m → Table m N α n) : Table m N α (n + 1)

variable {m : ℕ} {N α : Type}

def walk (ok : N → Bool) : ∀ {n : ℕ}, Table m N α n → Path m n → Option α
  | _, .leaf val, .last i => some (val i)
  | _, .node slot child, .step i p =>
    (slot i).bind fun l => if ok l then walk ok (child i) p else none

def lookup {n : ℕ} (t : Table m N α n) (p : Path m n) : Option α := walk (fun _ => true) t p

def write : ∀ {n : ℕ}, Table m N α n → Path m n → α → Option (Table m N α n)
  | _, .leaf val, .last i, v => some (.leaf (update val i v))
  | _, .node slot child, .step i p, v =>
    (slot i).bind fun _ => (write (child i) p v).map fun c =>
      .node slot (update child i c)

def blank (zero : α) : ∀ n, Table m N α n
  | 0 => .leaf fun _ => zero
  | n + 1 => .node (fun _ => none) fun _ => blank zero n

def insert (label : N) (zero : α) : ∀ {n : ℕ}, Table m N α n → Path m n → α → Table m N α n
  | _, .leaf val, .last i, v => .leaf (update val i v)
  | n + 1, .node slot child, .step i p, v =>
    match slot i with
    | none => .node (update slot i (some label))
        (update child i (insert label zero (blank zero n) p v))
    | some _ => .node slot (update child i (insert label zero (child i) p v))

section Lookup

variable {n : ℕ} {t t' : Table m N α n} {p q : Path m n} {v old : α}

theorem write_isSome : (write t p v).isSome ↔ (lookup t p).isSome := by
  induction t with
  | leaf val =>
    cases p
    simp [write, lookup, walk]
  | node slot child ih =>
    cases p with
    | step i p =>
      cases hs : slot i with
      | none => simp [write, lookup, walk, hs]
      | some l => simpa [write, lookup, walk, hs] using ih i

theorem walk_write {ok : N → Bool} (h : write t p v = some t') :
    walk ok t' q = if q = p then (walk ok t p).map fun _ => v else walk ok t q := by
  induction t with
  | leaf val =>
    obtain ⟨i⟩ := p
    obtain ⟨j⟩ := q
    cases h
    by_cases hj : j = i
    · subst hj
      simp [walk]
    · simp [walk, hj]
  | node slot child ih =>
    cases p with
    | step i p =>
    cases q with
    | step j q =>
      obtain ⟨l, hl, h⟩ := Option.bind_eq_some_iff.mp h
      obtain ⟨c, hw, rfl⟩ := Option.map_eq_some_iff.mp h
      by_cases hj : j = i
      · subst hj
        by_cases hok : ok l
        · simpa [walk, hl, hok] using ih j hw
        · simp [walk, hl, hok]
      · simp [walk, hj]

theorem lookup_write (h : write t p v = some t') :
    lookup t' q = if q = p then some v else lookup t q := by
  have hsm : (lookup t p).isSome := write_isSome.mp (Option.isSome_of_eq_some h)
  obtain ⟨old, hold⟩ := Option.isSome_iff_exists.mp hsm
  rw [lookup, walk_write h, ← lookup, hold]
  rfl

theorem lookup_of_walk {ok : N → Bool} (h : walk ok t p = some v) : lookup t p = some v := by
  induction t with
  | leaf val =>
    obtain ⟨i⟩ := p
    exact h
  | node slot child ih =>
    cases p with
    | step i p =>
      obtain ⟨l, hl, h⟩ := Option.bind_eq_some_iff.mp h
      split at h
      · simpa [lookup, walk, hl] using ih i h
      · simp at h

theorem write_eq_insert {label : N} {zero : α} (h : lookup t p = some old) :
    write t p v = some (insert label zero t p v) := by
  induction t with
  | leaf val =>
    obtain ⟨i⟩ := p
    rfl
  | node slot child ih =>
    cases p with
    | step i p =>
      obtain ⟨l, hl, h⟩ := Option.bind_eq_some_iff.mp h
      simp [write, insert, hl, ih i h]

theorem getD_lookup_blank (zero : α) (q : Path m n) :
    (lookup (blank zero n : Table m N α n) q).getD zero = zero := by
  cases q with
  | last j => rfl
  | step j q => rfl

theorem getD_lookup_insert (label : N) (zero : α) (t : Table m N α n) (p q : Path m n) (v : α) :
    (lookup (insert label zero t p v) q).getD zero =
      if q = p then v else (lookup t q).getD zero := by
  induction p with
  | last i =>
    cases t with
    | leaf val =>
    cases q with
    | last j =>
      by_cases hj : j = i
      · subst hj
        simp [lookup, walk, insert]
      · simp [lookup, walk, insert, hj]
  | step i p ih =>
    cases t with
    | node slot child =>
    cases q with
    | step j q =>
      by_cases hj : j = i
      · subst hj
        cases hs : slot j with
        | none =>
          have hbl := ih (blank zero _) q
          rw [getD_lookup_blank] at hbl
          simpa [lookup, walk, insert, hs] using hbl
        | some l => simpa [lookup, walk, insert, hs] using ih (child j) q
      · cases hs : slot i with
        | none | some l => simp [lookup, walk, insert, hs, hj]

end Lookup

def pathEquiv (m n : ℕ) : Path m (n + 1) ≃ Fin m × Path m n where
  toFun | .step i p => (i, p)
  invFun x := .step x.1 x.2
  left_inv := by rintro ⟨i, p⟩; rfl
  right_inv _ := rfl

def lastEquiv (m : ℕ) : Path m 0 ≃ Fin m where
  toFun | .last i => i
  invFun := .last
  left_inv := by rintro ⟨i⟩; rfl
  right_inv _ := rfl

instance Path.fintype : ∀ n, Fintype (Path m n)
  | 0 => Fintype.ofEquiv _ (lastEquiv m).symm
  | n + 1 =>
    have := Path.fintype n
    Fintype.ofEquiv _ (pathEquiv m n).symm

theorem sum_path_zero (f : Path m 0 → ℕ) : ∑ p, f p = ∑ i, f (.last i) :=
  ((lastEquiv m).symm.sum_comp f).symm

theorem sum_path_succ {n : ℕ} (f : Path m (n + 1) → ℕ) : ∑ p, f p = ∑ i, ∑ p, f (.step i p) := by
  rw [← (pathEquiv m n).symm.sum_comp f, Fintype.sum_prod_type]
  rfl

end RadixTable
