import SalernosKernel.Spans

/-! # A list of free blocks kept in order of size

Blocks are cut from either end of the list. A one-page block goes to the end and is merged with the
last block when the two are adjacent; any other block is inserted before the first block that is no
larger. -/
namespace BlockList

open Spans List Option

def insertOrdered (b : Span) : List Span → List Span
  | [] => [b]
  | c :: cs => if c.size ≤ b.size then b :: c :: cs else c :: insertOrdered b cs

def Adjacent (b c : Span) : Prop := b.start = c.stop ∨ c.start = b.start + 1
  deriving Decidable

def joinLast (b c : Span) : List Span :=
  if b.start = c.stop then [⟨c.start, c.size + 1⟩]
  else if c.start = b.start + 1 then [⟨b.start, b.size + c.size⟩]
  else [c, b]

def insertLast (b : Span) : List Span → List Span
  | [] => [b]
  | [c] => joinLast b c
  | c :: d :: cs => c :: insertLast b (d :: cs)

def addOrdered (b : Span) (bs : List Span) : List Span :=
  if b.size = 1 then insertLast b bs else insertOrdered b bs

def popRear : List Span → Option (Span × List Span)
  | [] => none
  | [b] =>
    if b.size = 1 then some (b, [])
    else some (⟨b.start + (b.size - 1), 1⟩, [⟨b.start, b.size - 1⟩])
  | b :: c :: cs => (popRear (c :: cs)).map fun (got, rest) => (got, b :: rest)

def putBack (keep : Span) : List Span → List Span
  | [] => [keep]
  | c :: cs => if keep.size < c.size then addOrdered keep (c :: cs) else keep :: c :: cs

def popFront (n : ℕ) : List Span → Option (Span × List Span)
  | [] => none
  | b :: rest =>
    if b.size ≤ n then some (b, rest)
    else some (⟨b.start + (b.size - n), n⟩, putBack ⟨b.start, b.size - n⟩ rest)

def popFor (n : ℕ) (bs : List Span) : Option (Span × List Span) :=
  if n = 1 then popRear bs else popFront n bs

def FrontIntact (n : ℕ) : List Span → Prop
  | b :: c :: _ => b.size ≤ n → c.size ≤ b.size
  | _ => True

def reinserted (n : ℕ) : List Span → Option (Span × List Span)
  | b :: c :: cs =>
    if n ≠ 1 ∧ n < b.size ∧ b.size - n < c.size then some (⟨b.start, b.size - n⟩, c :: cs)
    else none
  | _ => none

instance (n : ℕ) (bs : List Span) : Decidable (FrontIntact n bs) := by
  unfold FrontIntact
  split <;> infer_instance

def Positive (bs : List Span) : Prop := ∀ b ∈ bs, 0 < b.size
  deriving Decidable

def Sorted (bs : List Span) : Prop := bs.Pairwise fun b c => c.size ≤ b.size
  deriving Decidable

variable {b c : Span} {bs cs : List Span} {n p : ℕ}

@[simp] theorem insertLast_snoc : insertLast b (bs ++ [c]) = bs ++ joinLast b c := by
  induction bs with
  | nil => rfl
  | cons d ds ih =>
    cases ds with
    | nil => rfl
    | cons e es => simpa [insertLast] using ih

theorem popRear_snoc : popRear (bs ++ [b]) =
    if b.size = 1 then some (b, bs)
    else some (⟨b.start + (b.size - 1), 1⟩, bs ++ [⟨b.start, b.size - 1⟩]) := by
  induction bs with
  | nil => simp [popRear]
  | cons d ds ih =>
    have hcn : popRear (d :: ds ++ [b]) =
        (popRear (ds ++ [b])).map fun (got, rest) => (got, d :: rest) := by
      cases ds <;> rfl
    rw [hcn, ih]
    split <;> rfl

theorem joinLast_of_not_adjacent (h : ¬ Adjacent b c) : joinLast b c = [c, b] := by
  rw [joinLast, if_neg (fun he => h (Or.inl he)), if_neg (fun he => h (Or.inr he))]

theorem joinLast_of_adjacent (h : Adjacent b c) (hb : b.size = 1) :
    ∃ i, joinLast b c = [⟨i, c.size + 1⟩] ∧ (i = c.start ∨ i = b.start) ∧
      ∀ p, (Span.mk i (c.size + 1)).hits p = b.hits p + c.hits p := by
  obtain ⟨bi, bn⟩ := b
  obtain ⟨ci, cn⟩ := c
  obtain rfl : bn = 1 := hb
  by_cases hu : bi = ci + cn
  · refine ⟨ci, by simp [joinLast, Span.stop, hu], Or.inl rfl, fun p => ?_⟩
    rw [hits_split, hu, add_comm]
  · have hd : ci = bi + 1 := h.resolve_left hu
    refine ⟨bi, ?_, Or.inr rfl, fun p => ?_⟩
    · have hne : ¬ (Span.mk bi 1).start = (Span.mk ci cn).stop := hu
      rw [joinLast, if_neg hne, if_pos hd, add_comm cn]
    · rw [add_comm cn, hits_split, hd]

@[simp] theorem insertOrdered_cover : cover (insertOrdered b bs) p = b.hits p + cover bs p := by
  induction bs with
  | nil => simp [insertOrdered]
  | cons c cs ih =>
    rw [insertOrdered]
    split
    · simp
    · simp only [cover_cons, ih]
      omega

theorem joinLast_cover (hb : b.size = 1) : cover (joinLast b c) p = b.hits p + c.hits p := by
  by_cases h : Adjacent b c
  · obtain ⟨i, hj, -, hh⟩ := joinLast_of_adjacent h hb
    simp [hj, hh]
  · simp [joinLast_of_not_adjacent h, add_comm]

theorem insertLast_cover (hb : b.size = 1) : cover (insertLast b bs) p = b.hits p + cover bs p := by
  rcases eq_nil_or_concat' bs with rfl | ⟨ds, c, rfl⟩
  · simp [insertLast]
  · rw [insertLast_snoc, cover_append, joinLast_cover hb, cover_append]
    simp only [cover_cons, cover_nil]
    omega

theorem addOrdered_cover : cover (addOrdered b bs) p = b.hits p + cover bs p := by
  unfold addOrdered
  split
  · exact insertLast_cover ‹_›
  · exact insertOrdered_cover

theorem putBack_cover : cover (putBack b bs) p = b.hits p + cover bs p := by
  cases bs with
  | nil => simp [putBack]
  | cons c cs =>
    rw [putBack]
    split
    · exact addOrdered_cover
    · simp

variable {got : Span}

theorem popFront_cover (h : popFront n bs = some (got, cs)) :
    cover bs p = got.hits p + cover cs p := by
  cases bs with
  | nil => simp [popFront] at h
  | cons b rest =>
    rw [popFront] at h
    split at h
    · obtain ⟨rfl, rfl⟩ := h
      rw [cover_cons]
    · simp only [some.injEq, Prod.mk.injEq] at h
      obtain ⟨rfl, rfl⟩ := h
      have hn : b.size - n + n = b.size := by omega
      have hs : b.hits p = (Span.mk b.start (b.size - n)).hits p +
          (Span.mk (b.start + (b.size - n)) n).hits p := by
        rw [← hits_split, hn]
      rw [cover_cons, putBack_cover, hs]
      omega

theorem popRear_cover (hps : Positive bs) (h : popRear bs = some (got, cs)) :
    cover bs p = got.hits p + cover cs p := by
  rcases eq_nil_or_concat' bs with rfl | ⟨ds, b, rfl⟩
  · simp [popRear] at h
  · have hb : 0 < b.size := hps b (by simp)
    rw [popRear_snoc] at h
    split at h
    · obtain ⟨rfl, rfl⟩ := h
      simp [add_comm]
    · simp only [some.injEq, Prod.mk.injEq] at h
      obtain ⟨rfl, rfl⟩ := h
      have hn : b.size - 1 + 1 = b.size := by omega
      have hs : b.hits p = (Span.mk b.start (b.size - 1)).hits p +
          (Span.mk (b.start + (b.size - 1)) 1).hits p := by
        rw [← hits_split, hn]
      simp only [cover_append, cover_cons, cover_nil, hs]
      omega

theorem popFor_cover (hps : Positive bs) (h : popFor n bs = some (got, cs)) :
    cover bs p = got.hits p + cover cs p := by
  unfold popFor at h
  split at h
  · exact popRear_cover hps h
  · exact popFront_cover h

theorem Positive.append : Positive (bs ++ cs) ↔ Positive bs ∧ Positive cs := by
  simp only [Positive, mem_append, or_imp, forall_and]

theorem Positive.cons : Positive (b :: bs) ↔ 0 < b.size ∧ Positive bs := by
  simp [Positive]

theorem Positive.nil : Positive [] := by simp [Positive]

theorem mem_insertOrdered : c ∈ insertOrdered b bs ↔ c = b ∨ c ∈ bs := by
  induction bs with
  | nil => simp [insertOrdered]
  | cons d ds ih =>
    rw [insertOrdered]
    split
    · simp
    · simp only [mem_cons, ih]
      tauto

theorem Positive.insertOrdered (h : Positive bs) (hb : 0 < b.size) :
    Positive (insertOrdered b bs) := by
  intro c hc
  rcases mem_insertOrdered.mp hc with rfl | hc
  · exact hb
  · exact h c hc

theorem Positive.joinLast (hc : 0 < c.size) (hb : 0 < b.size) : Positive (joinLast b c) := by
  unfold BlockList.joinLast Positive
  split_ifs <;> simp [hb, hc]

theorem Positive.addOrdered (h : Positive bs) (hb : 0 < b.size) : Positive (addOrdered b bs) := by
  unfold BlockList.addOrdered
  split
  · rcases eq_nil_or_concat' bs with rfl | ⟨ds, c, rfl⟩
    · exact Positive.cons.mpr ⟨hb, h⟩
    · obtain ⟨hd, hc⟩ := Positive.append.mp h
      rw [insertLast_snoc]
      exact Positive.append.mpr ⟨hd, Positive.joinLast (hc c (by simp)) hb⟩
  · exact h.insertOrdered hb

theorem Positive.putBack (h : Positive bs) (hb : 0 < b.size) : Positive (putBack b bs) := by
  cases bs with
  | nil => exact Positive.cons.mpr ⟨hb, h⟩
  | cons c cs =>
    rw [putBack]
    split
    · exact h.addOrdered hb
    · exact Positive.cons.mpr ⟨hb, h⟩

theorem Positive.popFront (hps : Positive bs) (hn : 0 < n)
    (h : popFront n bs = some (got, cs)) : 0 < got.size ∧ Positive cs := by
  cases bs with
  | nil => simp [popFront] at h
  | cons b rest =>
    obtain ⟨hb, hrs⟩ := Positive.cons.mp hps
    rw [popFront] at h
    split at h
    · obtain ⟨rfl, rfl⟩ := h
      exact ⟨hb, hrs⟩
    · simp only [some.injEq, Prod.mk.injEq] at h
      obtain ⟨rfl, rfl⟩ := h
      have hk : 0 < b.size - n := by omega
      exact ⟨hn, hrs.putBack hk⟩

theorem Positive.popRear (hps : Positive bs)
    (h : popRear bs = some (got, cs)) : got.size = 1 ∧ Positive cs := by
  rcases eq_nil_or_concat' bs with rfl | ⟨ds, b, rfl⟩
  · simp [popRear] at h
  · obtain ⟨hds, hb⟩ := Positive.append.mp hps
    have hb : 0 < b.size := hb b (by simp)
    rw [popRear_snoc] at h
    split at h
    · obtain ⟨rfl, rfl⟩ := h
      exact ⟨‹_›, hds⟩
    · simp only [some.injEq, Prod.mk.injEq] at h
      obtain ⟨rfl, rfl⟩ := h
      have hk : 0 < b.size - 1 := by omega
      exact ⟨rfl, Positive.append.mpr ⟨hds, Positive.cons.mpr ⟨hk, Positive.nil⟩⟩⟩

theorem Positive.popFor (hps : Positive bs) (hn : 0 < n)
    (h : popFor n bs = some (got, cs)) : 0 < got.size ∧ Positive cs := by
  unfold BlockList.popFor at h
  split at h
  · obtain ⟨h₁, h₂⟩ := hps.popRear h
    exact ⟨h₁ ▸ one_pos, h₂⟩
  · exact hps.popFront hn h

structure Layout (bound : ℕ) (bs : List Span) : Prop where
  positive : Positive bs
  once : ∀ p, cover bs p ≤ 1
  inside : ∀ p, 0 < cover bs p → p < bound

namespace Layout

variable {bound : ℕ}

theorem of_cover_le (h : Layout bound bs) (hps : Positive cs)
    (hle : ∀ p, cover cs p ≤ cover bs p) : Layout bound cs :=
  ⟨hps, fun p => (hle p).trans (h.once p), fun p hp => h.inside p (hp.trans_le (hle p))⟩

theorem left (h : Layout bound (bs ++ cs)) : Layout bound bs :=
  h.of_cover_le (Positive.append.mp h.positive).1 fun p => by rw [cover_append]; omega

theorem pairwise (h : Layout bound bs) : bs.Pairwise Span.Disjoint :=
  pairwise_disjoint_of_cover h.positive h.once

theorem nodup (h : Layout bound bs) : (bs.map Span.start).Nodup :=
  nodup_starts_of_cover h.positive h.once

theorem length_le (h : Layout bound bs) : bs.length ≤ bound := by
  rw [← length_map Span.start]
  refine length_le_of_nodup h.nodup fun x hx => ?_
  obtain ⟨b, hb, rfl⟩ := mem_map.mp hx
  have hcv : b.Covers b.start := ⟨le_rfl, Nat.lt_add_of_pos_right (h.positive b hb)⟩
  exact h.inside _ (cover_pos.mpr ⟨b, hb, hcv⟩)

theorem start_notMem (h : Layout bound (b :: bs)) : b.start ∉ bs.map Span.start :=
  (nodup_cons.mp h.nodup).1

end Layout

theorem Sorted.insertOrdered (h : Sorted bs) : Sorted (insertOrdered b bs) := by
  induction bs with
  | nil => exact pairwise_singleton _ _
  | cons c cs ih =>
    obtain ⟨hc, hcs⟩ := pairwise_cons.mp h
    rw [BlockList.insertOrdered]
    split
    · refine List.Pairwise.cons ?_ h
      intro d hd
      rcases mem_cons.mp hd with rfl | hd
      · assumption
      · exact (hc d hd).trans ‹_›
    · refine List.Pairwise.cons (fun d hd => ?_) (ih hcs)
      rcases mem_insertOrdered.mp hd with rfl | hd
      · omega
      · exact hc d hd

def MergeFits (b : Span) (bs : List Span) : Prop :=
  match bs.reverse with
  | c :: d :: _ => b.size = 1 → Adjacent b c → c.size < d.size
  | _ => True

instance (b : Span) (bs : List Span) : Decidable (MergeFits b bs) := by
  unfold MergeFits
  split <;> infer_instance

theorem mergeFits_snoc {d : Span} : MergeFits b (bs ++ [d] ++ [c]) ↔
    (b.size = 1 → Adjacent b c → c.size < d.size) := by
  simp [MergeFits]

theorem sorted_snoc : Sorted (bs ++ [c]) ↔ Sorted bs ∧ ∀ d ∈ bs, c.size ≤ d.size := by
  simp [Sorted, pairwise_append]

theorem Sorted.insertLast (h : Sorted bs) (hps : Positive bs) (hb : b.size = 1)
    (hft : MergeFits b bs) : Sorted (insertLast b bs) := by
  rcases eq_nil_or_concat' bs with rfl | ⟨ds, c, rfl⟩
  · exact pairwise_singleton _ _
  · rw [insertLast_snoc]
    obtain ⟨hds, hc⟩ := sorted_snoc.mp h
    by_cases had : Adjacent b c
    · obtain ⟨i, hj, -, -⟩ := joinLast_of_adjacent had hb
      rw [hj, sorted_snoc]
      refine ⟨hds, fun d hd => ?_⟩
      -- Every earlier block is at least as large as the one just before the last.
      rcases eq_nil_or_concat' ds with rfl | ⟨es, e, rfl⟩
      · simp at hd
      · have hlt := mergeFits_snoc.mp hft hb had
        rcases mem_append.mp hd with hd | hd
        · exact hlt.trans_le ((sorted_snoc.mp hds).2 d hd)
        · rwa [mem_singleton.mp hd]
    · have hap : ds ++ [c, b] = (ds ++ [c]) ++ [b] := by simp
      rw [joinLast_of_not_adjacent had, hap, sorted_snoc]
      exact ⟨h, fun d hd => hb ▸ hps d hd⟩

theorem Sorted.addOrdered (h : Sorted bs) (hps : Positive bs) (hft : MergeFits b bs) :
    Sorted (addOrdered b bs) := by
  unfold BlockList.addOrdered
  split
  · exact h.insertLast hps ‹_› hft
  · exact h.insertOrdered

theorem Sorted.frontIntact (h : Sorted bs) (n : ℕ) : FrontIntact n bs := by
  unfold FrontIntact
  split
  · exact fun _ => (pairwise_cons.mp h).1 _ mem_cons_self
  · trivial

theorem Sorted.le_head (h : Sorted (b :: bs)) (hc : c ∈ b :: bs) : c.size ≤ b.size := by
  rcases mem_cons.mp hc with rfl | hc
  · exact le_rfl
  · exact (pairwise_cons.mp h).1 c hc

theorem popFront_size (hle : n ≤ b.size)
    (h : popFront n (b :: bs) = some (got, cs)) : got.size = n := by
  rw [popFront] at h
  split at h
  · obtain ⟨rfl, -⟩ := h
    omega
  · simp only [some.injEq, Prod.mk.injEq] at h
    obtain ⟨rfl, -⟩ := h
    rfl

theorem Sorted.popRear (h : Sorted bs) (hp : popRear bs = some (got, cs)) : Sorted cs := by
  rcases eq_nil_or_concat' bs with rfl | ⟨ds, b, rfl⟩
  · simp [popRear] at hp
  · obtain ⟨hds, hb⟩ := sorted_snoc.mp h
    rw [popRear_snoc] at hp
    split at hp
    · simp only [some.injEq, Prod.mk.injEq] at hp
      exact hp.2 ▸ hds
    · simp only [some.injEq, Prod.mk.injEq] at hp
      rw [← hp.2, sorted_snoc]
      exact ⟨hds, fun d hd => (Nat.sub_le _ _).trans (hb d hd)⟩

theorem popFront_cases (hn : n ≠ 1) (h : popFront n (b :: bs) = some (got, cs)) :
    got = b ∧ cs = bs ∨
    got.start = b.start + (b.size - n) ∧
      (cs = ⟨b.start, b.size - n⟩ :: bs ∧ (∀ c ∈ bs.head?, c.size ≤ b.size - n) ∨
      cs = addOrdered ⟨b.start, b.size - n⟩ bs ∧
        reinserted n (b :: bs) = some (⟨b.start, b.size - n⟩, bs)) := by
  rw [popFront] at h
  split at h
  · simp only [some.injEq, Prod.mk.injEq] at h
    exact Or.inl ⟨h.1.symm, h.2.symm⟩
  · obtain ⟨rfl, rfl⟩ := h
    refine Or.inr ⟨rfl, ?_⟩
    cases bs with
    | nil => exact Or.inl ⟨rfl, by simp⟩
    | cons c cs =>
      rw [putBack]
      split
      · refine Or.inr ⟨rfl, ?_⟩
        rw [reinserted, if_pos ⟨hn, by omega, ‹_›⟩]
      · exact Or.inl ⟨rfl, fun d hd => some.inj hd ▸ Nat.le_of_not_lt ‹_›⟩

theorem Sorted.popFor (h : Sorted bs) (hps : Positive bs)
    (hft : ∀ x ∈ reinserted n bs, MergeFits x.1 x.2) (hp : popFor n bs = some (got, cs)) :
    Sorted cs := by
  unfold BlockList.popFor at hp
  split at hp
  · exact h.popRear hp
  rename_i hn
  cases bs with
  | nil => simp [BlockList.popFront] at hp
  | cons b bs =>
    obtain ⟨hb, hbs⟩ := pairwise_cons.mp h
    rcases popFront_cases hn hp with ⟨-, rfl⟩ | ⟨-, ⟨rfl, hle⟩ | ⟨rfl, hre⟩⟩
    · exact hbs
    · cases bs with
      | nil => exact pairwise_singleton _ _
      | cons c cs =>
        refine List.Pairwise.cons (fun d hd => ?_) hbs
        exact (Sorted.le_head hbs hd).trans (hle c rfl)
    · exact Sorted.addOrdered hbs (Positive.cons.mp hps).2 (hft _ hre)

def addAll : List Span → List Span → List Span
  | bs, [] => bs
  | bs, b :: l => addAll (addOrdered b bs) l

def EachAdd (P : Span → List Span → Prop) : List Span → List Span → Prop
  | _, [] => True
  | bs, b :: l => P b bs ∧ EachAdd P (addOrdered b bs) l

instance EachAdd.decidable (P : Span → List Span → Prop) [∀ b bs, Decidable (P b bs)] :
    ∀ bs l, Decidable (EachAdd P bs l)
  | _, [] => isTrue trivial
  | bs, b :: l =>
    have := EachAdd.decidable P (addOrdered b bs) l
    inferInstanceAs (Decidable (P b bs ∧ EachAdd P (addOrdered b bs) l))

theorem addAll_cover : cover (addAll bs cs) p = cover bs p + cover cs p := by
  induction cs generalizing bs with
  | nil => rfl
  | cons b l ih =>
    rw [addAll, ih, addOrdered_cover, cover_cons]
    omega

theorem Positive.addAll (h : Positive bs) (hc : Positive cs) : Positive (addAll bs cs) := by
  induction cs generalizing bs with
  | nil => exact h
  | cons b l ih =>
    obtain ⟨hb, hl⟩ := Positive.cons.mp hc
    exact ih (h.addOrdered hb) hl

theorem Layout.addAll_left {bound : ℕ} {l : List Span} (h : Layout bound (bs ++ cs ++ l)) :
    Layout bound (addAll bs cs ++ l) := by
  obtain ⟨h₁, hl⟩ := Positive.append.mp h.positive
  obtain ⟨hbs, hcs⟩ := Positive.append.mp h₁
  refine h.of_cover_le (Positive.append.mpr ⟨hbs.addAll hcs, hl⟩) fun p => ?_
  rw [cover_append, cover_append, addAll_cover, cover_append]

theorem Sorted.addAll (h : Sorted bs) (hps : Positive bs) (hc : Positive cs)
    (hft : EachAdd MergeFits bs cs) : Sorted (addAll bs cs) := by
  induction cs generalizing bs with
  | nil => exact h
  | cons b l ih =>
    obtain ⟨hb, hl⟩ := Positive.cons.mp hc
    exact ih (h.addOrdered hps hft.1) (hps.addOrdered hb) hl hft.2

theorem starts_joinLast_subset : (joinLast b c).map Span.start ⊆ [c.start, b.start] := by
  unfold joinLast
  split_ifs <;> simp

theorem starts_addOrdered_subset :
    (addOrdered b bs).map Span.start ⊆ b.start :: bs.map Span.start := by
  unfold addOrdered
  split
  · rcases eq_nil_or_concat' bs with rfl | ⟨ds, c, rfl⟩
    · simp [insertLast]
    · intro p hp
      rw [insertLast_snoc, map_append, mem_append] at hp
      rw [map_append, map_singleton]
      rcases hp with hp | hp
      · simp [hp]
      · have := starts_joinLast_subset hp
        simp only [mem_cons, not_mem_nil, or_false, mem_append] at this ⊢
        tauto
  · intro p hp
    obtain ⟨c, hc, rfl⟩ := mem_map.mp hp
    rcases mem_insertOrdered.mp hc with rfl | hc
    · exact mem_cons_self
    · exact mem_cons_of_mem _ (mem_map_of_mem hc)

def Merges (b : Span) (bs : List Span) : Prop :=
  match bs.reverse with
  | c :: _ => b.size = 1 ∧ Adjacent b c
  | [] => False

instance (b : Span) (bs : List Span) : Decidable (Merges b bs) := by
  unfold Merges
  split <;> infer_instance

theorem merges_snoc : Merges b (bs ++ [c]) ↔ b.size = 1 ∧ Adjacent b c := by
  simp [Merges]

theorem mergeFits_of_not_merges (h : ¬ Merges b bs) : MergeFits b bs := by
  unfold Merges at h
  unfold MergeFits
  split
  · rename_i hr
    rw [hr] at h
    exact fun h₁ h₂ => absurd ⟨h₁, h₂⟩ h
  · trivial

theorem insertOrdered_perm : (insertOrdered b bs).Perm (b :: bs) := by
  induction bs with
  | nil => exact Perm.refl _
  | cons c cs ih =>
    rw [insertOrdered]
    split
    · exact Perm.refl _
    · exact (ih.cons c).trans (Perm.swap b c cs)

theorem addOrdered_perm (h : ¬ Merges b bs) : (addOrdered b bs).Perm (b :: bs) := by
  unfold addOrdered
  split
  · rcases eq_nil_or_concat' bs with rfl | ⟨ds, c, rfl⟩
    · exact Perm.refl _
    · have had : ¬ Adjacent b c := fun ha => h (merges_snoc.mpr ⟨‹_›, ha⟩)
      have hap : ds ++ [c, b] = (ds ++ [c]) ++ [b] := by simp
      rw [insertLast_snoc, joinLast_of_not_adjacent had, hap]
      exact perm_append_singleton _ _
  · exact insertOrdered_perm

theorem starts_popRear (h : popRear bs = some (got, cs)) :
    bs.map Span.start ⊆ got.start :: cs.map Span.start := by
  rcases eq_nil_or_concat' bs with rfl | ⟨ds, b, rfl⟩
  · simp
  · rw [popRear_snoc] at h
    split at h
    · obtain ⟨rfl, rfl⟩ := h
      intro p
      simp [or_comm]
    · simp only [some.injEq, Prod.mk.injEq] at h
      obtain ⟨rfl, rfl⟩ := h
      intro p
      simp only [map_append, map_singleton, mem_append, mem_cons]
      tauto

theorem starts_popFor (hm : ∀ x ∈ reinserted n bs, ¬ Merges x.1 x.2)
    (h : popFor n bs = some (got, cs)) :
    bs.map Span.start ⊆ got.start :: cs.map Span.start := by
  unfold popFor at h
  split at h
  · exact starts_popRear h
  rename_i hn
  cases bs with
  | nil => simp
  | cons b bs =>
    rcases popFront_cases hn h with ⟨rfl, rfl⟩ | ⟨-, ⟨rfl, -⟩ | ⟨rfl, hre⟩⟩
    · simp
    · exact subset_cons_self _ _
    · have hpr := (addOrdered_perm (hm _ hre)).map Span.start
      intro p hp
      exact mem_cons_of_mem _ (hpr.mem_iff.mpr hp)

end BlockList
