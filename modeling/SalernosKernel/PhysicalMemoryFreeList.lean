import SalernosKernel.PhysicalMemory
import SalernosKernel.BlockList

/-! # The free list as a list of blocks

The memory-level list operations refine operations on a plain list of page spans. -/
namespace PhysicalMemory

open TailQueue (Queue Represents Node)
open Spans BlockList List TailQueue

/-- Page frame `p` in the direct map; a free block has its header in its first frame. -/
@[irreducible] def frameAddr (p : ℕ) : ℕ := archPhysToHhdm (p * archPageSize)

def InHeader (p a : ℕ) : Prop := frameAddr p ≤ a ∧ a < frameAddr p + 24

def starts (bs : List Span) : List ℕ := bs.map Span.start

structure Threads (q : Queue) (bs : List Span) : Prop where
  links : Represents mainFreeListHead q ((starts bs).map frameAddr)
  pages : ∀ b ∈ bs, entryPages q (frameAddr b.start) = b.size

structure Rethreads (q q' : Queue) (touched : List ℕ) (bs : List Span) : Prop where
  threads : Threads q' bs
  frame : ∀ a, (∀ p ∈ touched, ¬ InHeader p a) → q'.mem a = q.mem a

variable {q q' : Queue} {bs k l : List Span} {b c : Span} {p r : ℕ}

theorem frameAddr_eq (p : ℕ) : frameAddr p = 0xffff800000000000 + 4096 * p := by
  simp only [frameAddr, archPhysToHhdm, hhdmOffset, archPageSize]
  omega

theorem frameAddr_node (p : ℕ) : Node mainFreeListHead (frameAddr p) := by
  have := frameAddr_eq p
  refine ⟨by omega, by omega, ?_⟩
  rw [mainFreeListHead]
  omega

theorem frameAddr_inj : frameAddr p = frameAddr r ↔ p = r := by
  rw [frameAddr_eq, frameAddr_eq]
  omega

variable {a frames fuel i : ℕ}

theorem frameAddr_apart (h : p ≠ r) {j : ℕ} (hi : i < 4096) (hj : j < 4096) :
    frameAddr p + i ≠ frameAddr r + j := by
  rw [frameAddr_eq, frameAddr_eq]
  omega

theorem pages_not_link (p r : ℕ) :
    frameAddr p + 16 ≠ frameAddr r ∧ frameAddr p + 16 ≠ frameAddr r + 8 := by
  rw [frameAddr_eq, frameAddr_eq]
  omega

theorem mem_map_frameAddr {l : List ℕ} : frameAddr p ∈ l.map frameAddr ↔ p ∈ l := by
  simp only [mem_map, frameAddr_inj, exists_eq_right]

theorem not_inHeader_links (h : ¬ InHeader p a) : a ≠ frameAddr p ∧ a ≠ frameAddr p + 8 := by
  unfold InHeader at h
  omega

theorem setPages_mem (q : Queue) (e n a : ℕ) :
    (setPages q e n).mem a = if a = e + 16 then n else q.mem a := by
  simp [setPages, Queue.store, Function.update_apply]

theorem entryPages_setPages (q : Queue) (e n : ℕ) : entryPages (setPages q e n) e = n := by
  rw [entryPages, setPages_mem, if_pos rfl]

theorem setPages_frame (h : ¬ InHeader p a) (n : ℕ) :
    (setPages q (frameAddr p) n).mem a = q.mem a := by
  unfold InHeader at h
  rw [setPages_mem, if_neg (by omega)]

theorem not_inHeader_of_ne (h : p ≠ r) (hi : i < 4096) : ¬ InHeader r (frameAddr p + i) := by
  unfold InHeader
  rw [frameAddr_eq, frameAddr_eq]
  omega

@[simp] theorem starts_append : starts (k ++ l) = starts k ++ starts l := by
  simp [starts]

@[simp] theorem starts_cons : starts (b :: bs) = b.start :: starts bs := rfl

@[simp] theorem starts_nil : starts [] = [] := rfl

theorem start_mem (h : b ∈ bs) : b.start ∈ starts bs := mem_map.mpr ⟨b, h, rfl⟩

namespace Threads

theorem nodup (h : Threads q bs) : (starts bs).Nodup := h.links.nodup.of_map _

theorem frame (h : Threads q bs) {m : ℕ → ℕ} (hm : ∀ p ∈ starts bs, ∀ i, i = 0 ∨ i = 8 ∨ i = 16 →
      m (frameAddr p + i) = q.mem (frameAddr p + i)) : Threads { q with mem := m } bs := by
  refine ⟨h.links.frame ?_, fun b hb => ?_⟩
  · intro y hy
    obtain ⟨p, hp, rfl⟩ := mem_map.mp hy
    exact ⟨hm p hp 0 (by simp), hm p hp 8 (by simp)⟩
  · exact (hm b.start (start_mem hb) 16 (by simp)).trans (h.pages b hb)

theorem setPages_fresh (h : Threads q bs) (hf : p ∉ starts bs) (n : ℕ) :
    Threads (setPages q (frameAddr p) n) bs := by
  refine h.frame (m := (setPages q (frameAddr p) n).mem) fun r hr i hi => ?_
  have hne : r ≠ p := fun he => hf (he ▸ hr)
  rw [setPages_mem, if_neg (frameAddr_apart hne (by omega) (by omega))]

theorem setPages_mid (h : Threads q (k ++ b :: l)) (n : ℕ) :
    Threads (setPages q (frameAddr b.start) n) (k ++ ⟨b.start, n⟩ :: l) := by
  have hnd := h.nodup
  constructor
  · have hl : starts (k ++ ⟨b.start, n⟩ :: l) = starts (k ++ b :: l) := by simp
    rw [hl]
    refine h.links.frame (m := (setPages q (frameAddr b.start) n).mem) fun y hy => ?_
    obtain ⟨r, -, rfl⟩ := mem_map.mp hy
    obtain ⟨h₁, h₂⟩ := pages_not_link b.start r
    rw [setPages_mem, setPages_mem, if_neg h₁.symm, if_neg h₂.symm]
    exact ⟨rfl, rfl⟩
  · intro c hc
    -- Only the resized block starts at this frame.
    have hc' : c = ⟨b.start, n⟩ ∨ (c ∈ k ++ b :: l ∧ c.start ≠ b.start) := by
      simp only [starts_append, starts_cons, nodup_append, nodup_cons] at hnd
      simp only [mem_append, mem_cons] at hc ⊢
      rcases hc with hc | rfl | hc
      · exact Or.inr ⟨Or.inl hc, fun he => hnd.2.2 _ (start_mem hc) _ (by simp) he⟩
      · exact Or.inl rfl
      · exact Or.inr ⟨Or.inr (Or.inr hc), fun he => hnd.2.1.1 (he ▸ start_mem hc)⟩
    rcases hc' with rfl | ⟨hcm, hne⟩
    · exact entryPages_setPages _ _ _
    · rw [entryPages, setPages_mem, if_neg (frameAddr_apart hne (by omega) (by omega))]
      exact h.pages c hcm

theorem first_eq (h : Threads q bs) : q.first = ((starts bs).map frameAddr).headD 0 :=
  h.links.first_eq

end Threads

theorem Rethreads.trans {q₁ q₂ : Queue} {touched : List ℕ} (h : Rethreads q q₁ touched k)
    (h' : Rethreads q₁ q₂ touched l) : Rethreads q q₂ touched l :=
  ⟨h'.threads, fun a ha => (h'.frame a ha).trans (h.frame a ha)⟩

variable {s : List ℕ}

theorem Rethreads.mono {t : List ℕ} (h : Rethreads q q' s bs) (hs : s ⊆ t) : Rethreads q q' t bs :=
  ⟨h.threads, fun a ha => h.frame a fun p hp => ha p (hs hp)⟩

theorem Rethreads.of_links (hl : Represents mainFreeListHead q' ((starts bs).map frameAddr))
    (hp : ∀ c ∈ bs, entryPages q (frameAddr c.start) = c.size)
    (hm : ∀ a, (∀ y ∈ (starts bs).map frameAddr, a ≠ y ∧ a ≠ y + 8) → q'.mem a = q.mem a) :
    Rethreads q q' (starts bs) bs := by
  have hm' : ∀ a, (∀ r ∈ starts bs, a ≠ frameAddr r ∧ a ≠ frameAddr r + 8) →
      q'.mem a = q.mem a := by
    intro a ha
    refine hm a fun y hy => ?_
    obtain ⟨r, hr, rfl⟩ := mem_map.mp hy
    exact ha r hr
  exact ⟨⟨hl, fun c hc => (hm' _ fun r _ => pages_not_link c.start r).trans (hp c hc)⟩,
    fun a ha => hm' a fun r hr => not_inHeader_links (ha r hr)⟩

theorem Rethreads.entryPages_off (h : Rethreads q q' s bs) (hp : p ∉ s) :
    entryPages q' (frameAddr p) = entryPages q (frameAddr p) :=
  h.frame _ fun r hr => not_inHeader_of_ne (fun he : p = r => hp (he ▸ hr)) (by omega)

theorem setPages_rethreads (h : Threads q (k ++ b :: l)) (n : ℕ) :
    Rethreads q (setPages q (frameAddr b.start) n) [b.start] (k ++ ⟨b.start, n⟩ :: l) := by
  exact ⟨h.setPages_mid n, fun a ha => setPages_frame (ha b.start (by simp)) n⟩

theorem insertTail_rethreads (h : Threads q bs) (hf : b.start ∉ starts bs)
    (hb : entryPages q (frameAddr b.start) = b.size) :
    Rethreads q (insertTail mainFreeListHead q (frameAddr b.start))
      (starts (bs ++ [b])) (bs ++ [b]) := by
  have hmp : (starts (bs ++ [b])).map frameAddr =
      (starts bs).map frameAddr ++ [frameAddr b.start] := by simp
  refine Rethreads.of_links ?_ ?_ ?_
  · rw [hmp]
    exact h.links.insertTail (frameAddr_node _) (fun hm => hf (mem_map_frameAddr.mp hm))
  · intro c hc
    rcases mem_append.mp hc with hc | hc
    · exact h.pages c hc
    · rwa [mem_singleton.mp hc]
  · rw [hmp]
    exact fun a ha => h.links.insertTail_frame ha

theorem insertBefore_rethreads (h : Threads q (k ++ c :: l)) (hf : b.start ∉ starts (k ++ c :: l))
    (hb : entryPages q (frameAddr b.start) = b.size) :
    Rethreads q (insertBefore mainFreeListHead q (frameAddr c.start) (frameAddr b.start))
      (starts (k ++ b :: c :: l)) (k ++ b :: c :: l) := by
  have hl := h.links
  have hf' := mt mem_map_frameAddr.mp hf
  simp only [starts_append, starts_cons, map_append, map_cons] at hl hf'
  refine Rethreads.of_links ?_ ?_ ?_
  · simp only [starts_append, starts_cons, map_append, map_cons]
    exact hl.insertBefore (frameAddr_node _) hf'
  · intro d hd
    by_cases he : d = b
    · rwa [he]
    · refine h.pages d ?_
      simp only [mem_append, mem_cons] at hd ⊢
      tauto
  · simp only [starts_append, starts_cons, map_append, map_cons]
    exact fun a ha => hl.insertBefore_frame (frameAddr_node _) hf' ha

theorem remove_rethreads (h : Threads q (k ++ b :: l)) :
    Rethreads q (remove mainFreeListHead q (frameAddr b.start)) (starts (k ++ l)) (k ++ l) := by
  have hl := h.links
  simp only [starts_append, starts_cons, map_append, map_cons] at hl
  refine Rethreads.of_links ?_ (fun d hd => h.pages d ?_) ?_
  · rw [starts_append, map_append]
    exact hl.remove
  · simp only [mem_append, mem_cons] at hd ⊢
    tauto
  · rw [starts_append, map_append]
    exact fun a ha => hl.remove_frame ha

theorem frameAddr_ne_zero (p : ℕ) : frameAddr p ≠ 0 := (frameAddr_node p).pos

theorem freelistScan_zero {e : ℕ} :
    freelistScan q e fuel 0 = some (insertTail mainFreeListHead q e) := by
  cases fuel <;> rfl

theorem freelistScan_refines (h : Threads q (k ++ l))
    (hf : b.start ∉ starts (k ++ l)) (hb : entryPages q (frameAddr b.start) = b.size)
    (hln : l.length ≤ fuel) :
    ∃ q', freelistScan q (frameAddr b.start) fuel (((starts l).map frameAddr).headD 0) = some q' ∧
      Rethreads q q' (b.start :: starts (k ++ l)) (k ++ insertOrdered b l) := by
  induction l generalizing k fuel with
  | nil =>
    rw [append_nil] at *
    refine ⟨_, freelistScan_zero, ?_⟩
    exact (insertTail_rethreads h hf hb).mono (by intro p; simp [or_comm])
  | cons c cs ih =>
    obtain _ | fuel := fuel
    · simp at hln
    have hc : entryPages q (frameAddr c.start) = c.size := h.pages c (by simp)
    have hnx : q.mem (frameAddr c.start) = ((starts cs).map frameAddr).headD 0 := by
      have hl := h.links
      simp only [starts_append, starts_cons, map_append, map_cons] at hl
      exact hl.next_eq
    rw [starts_cons, map_cons, headD_cons, freelistScan,
      if_neg (frameAddr_ne_zero _), hb, hc, insertOrdered]
    by_cases hle : c.size ≤ b.size
    · rw [if_pos hle, if_pos hle]
      refine ⟨_, rfl, (insertBefore_rethreads h hf hb).mono fun p => ?_⟩
      simp only [starts_append, starts_cons, mem_append, mem_cons]
      tauto
    · rw [if_neg hle, if_neg hle, hnx]
      have hap : k ++ c :: cs = k ++ [c] ++ cs := by simp
      rw [hap] at h hf
      obtain ⟨q', hq', hr⟩ := ih h hf (by simpa using hln)
      exact ⟨q', hq', by simpa using hr⟩

theorem addLast_refines (h : Threads q (bs ++ [c])) (hf : b.start ∉ starts (bs ++ [c]))
    (hb : entryPages q (frameAddr b.start) = b.size) (h1 : b.size = 1) (frames : ℕ) :
    ∃ q', freelistAddOrderedNolock frames q (frameAddr b.start) = some q' ∧
      Rethreads q q' (b.start :: starts (bs ++ [c])) (bs ++ joinLast b c) := by
  have hls : lastElem mainFreeListHead q = frameAddr c.start := by
    have hl := h.links
    rw [starts_append, map_append] at hl
    exact hl.lastElem_snoc
  have hc : entryPages q (frameAddr c.start) = c.size := h.pages c (by simp)
  have hup : frameAddr b.start = frameAddr c.start + c.size * archPageSize ↔ b.start = c.stop := by
    rw [frameAddr_eq, frameAddr_eq, archPageSize, Span.stop]
    omega
  have hdw : frameAddr c.start = frameAddr b.start + archPageSize ↔ c.start = b.start + 1 := by
    rw [frameAddr_eq, frameAddr_eq, archPageSize]
    omega
  rw [freelistAddOrderedNolock, hb, if_pos h1]
  simp only [hls, if_neg (frameAddr_ne_zero _), hc, hup, hdw, joinLast]
  by_cases hu : b.start = c.stop
  · rw [if_pos hu, if_pos hu]
    exact ⟨_, rfl, (setPages_rethreads h _).mono (by simp)⟩
  · rw [if_neg hu, if_neg hu]
    by_cases hd : c.start = b.start + 1
    · rw [if_pos hd, if_pos hd]
      let b' : Span := ⟨b.start, b.size + c.size⟩
      -- The header of `c` is unlinked and forgotten; the new block covers its page.
      have h₁ := h.setPages_fresh hf b'.size
      have h₂ := remove_rethreads h₁
      rw [append_nil] at h₂
      have hf' : b'.start ∉ starts bs := fun hm => hf (by rw [starts_append]; exact mem_append_left _ hm)
      have hb₂ := (h₂.entryPages_off hf').trans (entryPages_setPages _ _ b'.size)
      have h₃ := insertTail_rethreads h₂.threads hf' hb₂
      refine ⟨_, rfl, h₃.threads, fun a ha => ?_⟩
      have hs : ∀ p ∈ starts bs, ¬ InHeader p a := fun p hp => ha p (by simp [hp])
      have hb' : ¬ InHeader b.start a := ha _ (by simp)
      rw [h₃.frame a (by simpa [b', or_imp, forall_and] using ⟨hs, hb'⟩), h₂.frame a hs]
      exact setPages_frame hb' _
    · rw [if_neg hd, if_neg hd]
      have hap : bs ++ [c, b] = (bs ++ [c]) ++ [b] := by simp
      rw [hap]
      exact ⟨_, rfl, (insertTail_rethreads h hf hb).mono (by intro p; simp [or_comm, or_assoc])⟩

theorem freelistAddOrderedNolock_refines (h : Threads q bs)
    (hf : b.start ∉ starts bs) (hb : entryPages q (frameAddr b.start) = b.size)
    (hln : bs.length ≤ frames) :
    ∃ q', freelistAddOrderedNolock frames q (frameAddr b.start) = some q' ∧
      Rethreads q q' (b.start :: starts bs) (addOrdered b bs) := by
  by_cases h1 : b.size = 1
  · rw [addOrdered, if_pos h1]
    rcases eq_nil_or_concat' bs with rfl | ⟨ds, c, rfl⟩
    · have hls : lastElem mainFreeListHead q = 0 := h.links.lastElem_nil
      refine ⟨insertTail mainFreeListHead q (frameAddr b.start), ?_, ?_⟩
      · simp [freelistAddOrderedNolock, hb, h1, hls]
      · exact (insertTail_rethreads h hf hb).mono (by simp)
    · rw [insertLast_snoc]
      exact addLast_refines h hf hb h1 frames
  · rw [addOrdered, if_neg h1, freelistAddOrderedNolock, hb, if_neg h1, h.first_eq]
    exact freelistScan_refines (k := []) h hf hb hln

theorem freelistPopRearNolock_refines (h : Threads q bs) (hps : Positive bs) :
    (bs = [] ∧ freelistPopRearNolock q = none) ∨
    ∃ got cs q', popRear bs = some (got, cs) ∧
      freelistPopRearNolock q = some (frameAddr got.start, q') ∧
      Rethreads q q' (starts bs) cs := by
  rcases eq_nil_or_concat' bs with rfl | ⟨ds, b, rfl⟩
  · exact Or.inl ⟨rfl, by simp [freelistPopRearNolock, h.links.lastElem_nil]⟩
  · right
    have hls : lastElem mainFreeListHead q = frameAddr b.start := by
      have hl := h.links
      rw [starts_append, map_append] at hl
      exact hl.lastElem_snoc
    have hb : entryPages q (frameAddr b.start) = b.size := h.pages b (by simp)
    have hb0 : b.size ≠ 0 := (hps b (by simp)).ne'
    rw [popRear_snoc, freelistPopRearNolock]
    simp only [hls, if_neg (frameAddr_ne_zero _), hb]
    by_cases h1 : b.size = 1
    · rw [if_pos h1, if_pos h1]
      refine ⟨_, _, _, rfl, rfl, ?_⟩
      have hr := remove_rethreads h
      rw [append_nil] at hr
      exact hr.mono (by simp)
    · rw [if_neg h1, if_neg h1, sizeDec, if_neg hb0]
      refine ⟨_, _, _, rfl, ?_, (setPages_rethreads h _).mono (by simp)⟩
      rw [entryPages_setPages, frameAddr_eq, frameAddr_eq, archPageSize]
      simp only [Option.some.injEq, Prod.mk.injEq, and_true]
      omega

theorem removeHead_rethreads (h : Threads q (b :: bs)) :
    Rethreads q (remove mainFreeListHead q (frameAddr b.start)) (starts bs) bs ∧
      entryPages (remove mainFreeListHead q (frameAddr b.start)) (frameAddr b.start) = b.size := by
  have hr := remove_rethreads (k := []) h
  have hnd := h.nodup
  rw [starts_cons, nodup_cons] at hnd
  exact ⟨hr, (hr.entryPages_off hnd.1).trans (h.pages b (by simp))⟩

theorem Threads.next_eq (h : Threads q (b :: bs)) :
    q.mem (frameAddr b.start) = ((starts bs).map frameAddr).headD 0 :=
  have hl : Represents mainFreeListHead q ([] ++ frameAddr b.start :: (starts bs).map frameAddr) :=
    h.links
  hl.next_eq

theorem freelistRequeue_refines (h : Threads q (b :: bs)) (hln : bs.length ≤ frames) :
    ∃ q', freelistRequeue frames q (frameAddr b.start) (((starts bs).map frameAddr).headD 0) =
      some q' ∧ Rethreads q q' (starts (b :: bs)) (putBack b bs) := by
  have hb : entryPages q (frameAddr b.start) = b.size := h.pages b (by simp)
  cases bs with
  | nil => exact ⟨q, by simp [freelistRequeue], h, fun _ _ => rfl⟩
  | cons c cs =>
    have hc : entryPages q (frameAddr c.start) = c.size := h.pages c (by simp)
    simp only [freelistRequeue, starts_cons, map_cons, headD_cons, ne_eq,
      frameAddr_ne_zero, not_false_eq_true, true_and, hb, hc, putBack, gt_iff_lt]
    by_cases hlt : b.size < c.size
    · rw [if_pos hlt, if_pos hlt]
      obtain ⟨hr, hkp⟩ := removeHead_rethreads h
      have hnd := h.nodup
      rw [starts_cons, nodup_cons] at hnd
      obtain ⟨q', hq', had⟩ := freelistAddOrderedNolock_refines hr.threads hnd.1 hkp hln
      exact ⟨q', hq', (hr.mono (subset_cons_self _ _)).trans had⟩
    · rw [if_neg hlt, if_neg hlt]
      exact ⟨q, rfl, h, fun _ _ => rfl⟩

theorem freelistPopFrontNolock_refines {n : ℕ} (h : Threads q bs)
    (hfr : FrontIntact n bs) (hln : bs.length ≤ frames) :
    (bs = [] ∧ freelistPopFrontNolock frames q n = none) ∨
    ∃ got cs q', popFront n bs = some (got, cs) ∧
      freelistPopFrontNolock frames q n = some (got.size, frameAddr got.start, q') ∧
      Rethreads q q' (starts bs) cs := by
  cases bs with
  | nil => exact Or.inl ⟨rfl, by simp [freelistPopFrontNolock, h.first_eq]⟩
  | cons b rest =>
    right
    have hfs : q.first = frameAddr b.start := h.first_eq
    have hb : entryPages q (frameAddr b.start) = b.size := h.pages b (by simp)
    rw [popFront, freelistPopFrontNolock]
    simp only [hfs, if_neg (frameAddr_ne_zero _), hb, h.next_eq]
    by_cases hle : b.size ≤ n
    · obtain ⟨hr, hkp⟩ := removeHead_rethreads h
      have hst : ¬ (((starts rest).map frameAddr).headD 0 ≠ 0 ∧ entryPages
          (remove mainFreeListHead q (frameAddr b.start))
          (((starts rest).map frameAddr).headD 0) > b.size) := by
        cases rest with
        | nil => simp
        | cons c cs =>
          have hc := hr.threads.pages c (by simp)
          have hcb : c.size ≤ b.size := hfr hle
          simp only [starts_cons, map_cons, headD_cons, hc]
          omega
      rw [Nat.min_eq_right hle, if_pos rfl, if_pos hle, freelistRequeue, hkp, if_neg hst]
      exact ⟨_, _, _, rfl, rfl, hr.mono (subset_cons_self _ _)⟩
    · have hmn : min n b.size = n := by omega
      have hr := setPages_rethreads (k := []) h (b.size - n)
      have hln' : rest.length ≤ frames := Nat.le_of_succ_le hln
      obtain ⟨q', hq', hpt⟩ := freelistRequeue_refines hr.threads hln'
      have hrt : frameAddr b.start + archPageSize * (b.size - n) =
          frameAddr (b.start + (b.size - n)) := by
        rw [frameAddr_eq, frameAddr_eq, archPageSize]
        omega
      have hne : n ≠ b.size := by omega
      rw [hmn, if_neg hle, if_neg hne, hq', entryPages_setPages, hrt]
      exact ⟨_, _, _, rfl, rfl, (hr.mono (by simp)).trans hpt⟩

end PhysicalMemory
