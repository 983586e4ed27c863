import Mathlib.Algebra.Order.Ring.Nat
import Mathlib.Algebra.BigOperators.Group.List.Basic
import Mathlib.Data.Finset.Card

/-! # Counting covers of half-open spans

How many spans of a list cover a point is additive under concatenation and under cutting a span in
two. -/
namespace Spans

structure Span where
  start : ℕ
  size : ℕ
  deriving DecidableEq

def Span.stop (b : Span) : ℕ := b.start + b.size

def Span.Covers (b : Span) (p : ℕ) : Prop := b.start ≤ p ∧ p < b.stop
  deriving Decidable

def Span.Disjoint (b c : Span) : Prop := b.stop ≤ c.start ∨ c.stop ≤ b.start
  deriving Decidable

def Span.hits (b : Span) (p : ℕ) : ℕ := if b.start ≤ p ∧ p < b.stop then 1 else 0

def cover (l : List Span) (p : ℕ) : ℕ := (l.map (·.hits p)).sum

variable {b c : Span} {l k : List Span} {p : ℕ}

@[simp] theorem cover_nil : cover [] p = 0 := rfl

@[simp] theorem cover_cons : cover (b :: l) p = b.hits p + cover l p := by simp [cover]

@[simp] theorem cover_append : cover (l ++ k) p = cover l p + cover k p := by simp [cover]

theorem hits_le_one : b.hits p ≤ 1 := by
  unfold Span.hits
  split <;> omega

theorem hits_pos : 0 < b.hits p ↔ b.Covers p := by
  unfold Span.hits Span.Covers
  split <;> simp_all

theorem hits_split {m n i : ℕ} : (Span.mk i (m + n)).hits p =
    (Span.mk i m).hits p + (Span.mk (i + m) n).hits p := by
  grind [Span.hits, Span.stop]

theorem hits_empty {i : ℕ} : (Span.mk i 0).hits p = 0 := by
  grind [Span.hits, Span.stop]

theorem hits_le_cover (h : b ∈ l) : b.hits p ≤ cover l p := by
  induction l with
  | nil => simp at h
  | cons c cs ih =>
    rcases List.mem_cons.mp h with rfl | h
    · simp
    · have := ih h
      simp only [cover_cons]
      omega

theorem cover_pos : 0 < cover l p ↔ ∃ b ∈ l, b.Covers p := by
  induction l with
  | nil => simp
  | cons c cs ih =>
    simp only [cover_cons, List.mem_cons, exists_eq_or_imp]
    rw [← ih, ← hits_pos, Nat.add_pos_iff_pos_or_pos]

theorem disjoint_iff (hb : 0 < b.size) (hc : 0 < c.size) :
    b.Disjoint c ↔ ∀ p, b.hits p + c.hits p ≤ 1 := by
  constructor
  · intro h p
    grind [Span.hits, Span.stop, Span.Disjoint]
  · intro h
    have h₁ := h b.start
    have h₂ := h c.start
    grind [Span.hits, Span.stop, Span.Disjoint]

theorem hits_add_hits_le_of_cover (h : ∀ p, cover (b :: l) p ≤ 1) (hc : c ∈ l) (p : ℕ) :
    b.hits p + c.hits p ≤ 1 := by
  have h₁ := h p
  have h₂ := hits_le_cover (p := p) hc
  simp only [cover_cons] at h₁
  omega

theorem cover_le_of_cons (h : ∀ p, cover (b :: l) p ≤ 1) (p : ℕ) : cover l p ≤ 1 := by
  have h₁ := h p
  simp only [cover_cons] at h₁
  omega

theorem pairwise_disjoint_of_cover (hps : ∀ b ∈ l, 0 < b.size) (h : ∀ p, cover l p ≤ 1) :
    l.Pairwise Span.Disjoint := by
  induction l with
  | nil => exact List.Pairwise.nil
  | cons b bs ih =>
    refine List.Pairwise.cons ?_ (ih (fun c hc => hps c (by simp [hc])) (cover_le_of_cons h))
    intro c hc
    exact (disjoint_iff (hps b (by simp)) (hps c (by simp [hc]))).mpr
      (hits_add_hits_le_of_cover h hc)

theorem cover_le_one_of_pairwise (h : l.Pairwise Span.Disjoint) (p : ℕ) : cover l p ≤ 1 := by
  induction l with
  | nil => simp
  | cons b bs ih =>
    obtain ⟨hb, ht⟩ := List.pairwise_cons.mp h
    have hrs := ih ht
    rw [cover_cons]
    by_cases hc : b.Covers p
    · have hz : cover bs p = 0 := by
        by_contra hne
        obtain ⟨c, hm, hcp⟩ := cover_pos.mp (pos_of_ne_zero hne)
        have := hb c hm
        simp only [Span.Disjoint, Span.Covers] at *
        omega
      have := hits_le_one (b := b) (p := p)
      omega
    · have : b.hits p = 0 := if_neg hc
      omega

theorem start_ne_of_cover (hb : 0 < b.size) (hc : 0 < c.size)
    (h : ∀ p, b.hits p + c.hits p ≤ 1) : b.start ≠ c.start := by
  intro he
  have := h b.start
  grind [Span.hits, Span.stop]

theorem nodup_starts_of_cover (hps : ∀ b ∈ l, 0 < b.size) (h : ∀ p, cover l p ≤ 1) :
    (l.map Span.start).Nodup := by
  induction l with
  | nil => simp
  | cons b bs ih =>
    rw [List.map_cons, List.nodup_cons]
    refine ⟨?_, ih (fun c hc => hps c (by simp [hc])) (cover_le_of_cons h)⟩
    intro hm
    obtain ⟨c, hc, he⟩ := List.mem_map.mp hm
    exact start_ne_of_cover (hps b (by simp)) (hps c (by simp [hc]))
      (hits_add_hits_le_of_cover h hc) he.symm

theorem length_le_of_nodup {l : List ℕ} {n : ℕ} (hnd : l.Nodup) (h : ∀ x ∈ l, x < n) :
    l.length ≤ n := by
  have hs : l.toFinset ⊆ Finset.range n := by
    intro x hx
    exact Finset.mem_range.mpr (h x (List.mem_toFinset.mp hx))
  have := Finset.card_le_card hs
  rwa [List.toFinset_card_of_nodup hnd, Finset.card_range] at this

end Spans
