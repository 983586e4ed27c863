import SalernosKernel.PhysicalMemoryFreeList
import SalernosKernel.Runs

/-! # The free list at the end of initialisation

The second loop of `com_mm_pmm_init` adds one block per usable entry of the memory map, less
the pages of the metadata array. -/
namespace PhysicalMemory

open TailQueue (Queue Represents)
open Spans BlockList List Option

def MemmapEntry.span (e : MemmapEntry) : Span := ⟨e.base / archPageSize, e.length / archPageSize⟩

def usableSpans (memmap : List MemmapEntry) : List Span :=
  (memmap.filter archMemmapIsUsable).map MemmapEntry.span

structure UsableMap (memmap : List MemmapEntry) : Prop where
  aligned : ∀ e ∈ memmap, archMemmapIsUsable e → archPageSize ∣ e.base ∧ archPageSize ∣ e.length
  nonempty : ∀ e ∈ memmap, archMemmapIsUsable e → 0 < e.length
  disjoint : (memmap.filter archMemmapIsUsable).Pairwise fun e f => e.top ≤ f.base ∨ f.top ≤ e.base

def fitsPageMeta (hi : ℕ) (e : MemmapEntry) : Bool :=
  archMemmapIsUsable e ∧ e.length ≥ pageMetaAlignedSize hi

def entryBlocks (hi : ℕ) (placed : Bool) (e : MemmapEntry) : List Span :=
  if ¬ archMemmapIsUsable e then []
  else if placed = false ∧ e.length ≥ pageMetaAlignedSize hi then
    if e.length ≥ pageMetaAlignedSize hi + archPageSize then
      [⟨(e.base + pageMetaAlignedSize hi) / archPageSize,
        (e.length - pageMetaAlignedSize hi) / archPageSize⟩]
    else []
  else [e.span]

def bootBlocksFrom (hi : ℕ) : Bool → List MemmapEntry → List Span
  | _, [] => []
  | placed, e :: es => entryBlocks hi placed e ++ bootBlocksFrom hi (placed || fitsPageMeta hi e) es

def highestAddr (memmap : List MemmapEntry) : ℕ :=
  memmap.foldl (fun h e => max h e.top) 0

def highestIndexedAddr (memmap : List MemmapEntry) : ℕ :=
  memmap.foldl (fun h e =>
    if archMemmapIsReclaimable e ∨ archMemmapIsUsable e then max h e.top else h) 0

def bootBlocks (memmap : List MemmapEntry) : List Span :=
  bootBlocksFrom (highestIndexedAddr memmap) false memmap

variable {memmap es : List MemmapEntry} {e : MemmapEntry} {bs : List Span} {b : Span}
  {mem : ℕ → ℕ} {s s' : State} {hi ha p : ℕ} {placed : Bool}

theorem sizingStep_highestAddr (z : Sizing) :
    (sizingStep z e).highestAddr = max z.highestAddr e.top := by
  by_cases hu : archMemmapIsUsable e <;> simp [sizingStep, hu]

theorem sizingStep_highestIndexedAddr (z : Sizing) : (sizingStep z e).highestIndexedAddr =
      if archMemmapIsReclaimable e ∨ archMemmapIsUsable e then max z.highestIndexedAddr e.top
      else z.highestIndexedAddr := by
  by_cases hu : archMemmapIsUsable e <;> by_cases hr : archMemmapIsReclaimable e <;>
    simp [sizingStep, hu, hr]

theorem sizing_highestAddr : (sizing mem memmap).highestAddr = highestAddr memmap := by
  have aux : ∀ (z : Sizing), (memmap.foldl sizingStep z).highestAddr =
      memmap.foldl (fun h e => max h e.top) z.highestAddr := by
    induction memmap with
    | nil => intro z; rfl
    | cons e es ih => intro z; rw [foldl_cons, ih, sizingStep_highestAddr, foldl_cons]
  exact aux _

theorem sizing_highestIndexedAddr :
    (sizing mem memmap).highestIndexedAddr = highestIndexedAddr memmap := by
  have aux : ∀ (z : Sizing), (memmap.foldl sizingStep z).highestIndexedAddr =
      memmap.foldl (fun h e => if archMemmapIsReclaimable e ∨ archMemmapIsUsable e then
        max h e.top else h) z.highestIndexedAddr := by
    induction memmap with
    | nil => intro z; rfl
    | cons e es ih =>
      intro z
      rw [foldl_cons, ih, sizingStep_highestIndexedAddr, foldl_cons]
  exact aux _

theorem sizingStep_freeList (z : Sizing) : (sizingStep z e).freeList =
    if archMemmapIsUsable e then kmemsetZero z.freeList (archPhysToHhdm e.base) e.length
    else z.freeList := by
  by_cases hu : archMemmapIsUsable e <;> simp [sizingStep, hu]

theorem kmemsetZero_mem (q : Queue) (base size a : ℕ) : (kmemsetZero q base size).mem a =
    if base ≤ a ∧ a < base + size then 0 else q.mem a := rfl

theorem sizingStep_links (z : Sizing) : (sizingStep z e).freeList.first = z.freeList.first ∧
    (sizingStep z e).freeList.last = z.freeList.last := by
  rw [sizingStep_freeList]
  split <;> exact ⟨rfl, rfl⟩

theorem sizingStep_zero (z : Sizing) {a : ℕ} (h : z.freeList.mem a = 0) :
    (sizingStep z e).freeList.mem a = 0 := by
  rw [sizingStep_freeList]
  split
  · rw [kmemsetZero_mem]
    split
    · rfl
    · exact h
  · exact h

theorem sizing_freeList : Threads (sizing mem memmap).freeList [] ∧
    ∀ e ∈ memmap, archMemmapIsUsable e → ∀ a, archPhysToHhdm e.base ≤ a →
      a < archPhysToHhdm e.base + e.length → (sizing mem memmap).freeList.mem a = 0 := by
  have keep : ∀ (es : List MemmapEntry) (z : Sizing) (a : ℕ), z.freeList.mem a = 0 →
      (es.foldl sizingStep z).freeList.mem a = 0 := by
    intro es
    induction es with
    | nil => exact fun z a h => h
    | cons e es ih => exact fun z a h => ih _ a (sizingStep_zero z h)
  have links : ∀ (es : List MemmapEntry) (z : Sizing), Threads z.freeList [] →
      Threads (es.foldl sizingStep z).freeList [] := by
    intro es
    induction es with
    | nil => exact fun z h => h
    | cons e es ih =>
      intro z h
      refine ih _ ⟨⟨⟨?_, ?_⟩, nodup_nil, by simp⟩, by simp⟩
      · rw [(sizingStep_links z).1]
        exact h.links.chain.1
      · rw [(sizingStep_links z).2]
        exact h.links.chain.2
  constructor
  · exact links _ _ ⟨Represents.init _ _, by simp⟩
  · intro e he hu a hlo hhi
    obtain ⟨l, k, rfl⟩ := append_of_mem he
    rw [sizing, foldl_append, foldl_cons]
    refine keep _ _ _ ?_
    rw [sizingStep_freeList, if_pos hu, kmemsetZero_mem, if_pos ⟨hlo, hhi⟩]

theorem top_le_highestAddr (h : e ∈ memmap) : e.top ≤ highestAddr memmap := by
  have grow : ∀ (es : List MemmapEntry) (m : ℕ), m ≤ es.foldl (fun h e => max h e.top) m := by
    intro es
    induction es with
    | nil => exact fun m => le_rfl
    | cons e es ih => exact fun m => (le_max_left _ _).trans (ih _)
  obtain ⟨l, k, rfl⟩ := append_of_mem h
  rw [highestAddr, foldl_append, foldl_cons]
  exact (le_max_right _ _).trans (grow _ _)

theorem highestIndexedAddr_le : highestIndexedAddr memmap ≤ highestAddr memmap := by
  have aux : ∀ (es : List MemmapEntry) (m n : ℕ), m ≤ n →
      es.foldl (fun h e => if archMemmapIsReclaimable e ∨ archMemmapIsUsable e then
        max h e.top else h) m ≤ es.foldl (fun h e => max h e.top) n := by
    intro es
    induction es with
    | nil => exact fun m n h => h
    | cons e es ih =>
      intro m n h
      refine ih _ _ ?_
      dsimp only
      split <;> omega
  exact aux _ _ _ le_rfl

theorem UsableMap.tail (h : UsableMap (e :: es)) : UsableMap es := by
  refine ⟨fun f hf => h.aligned f (mem_cons_of_mem _ hf),
    fun f hf => h.nonempty f (mem_cons_of_mem _ hf), ?_⟩
  exact h.disjoint.sublist ((sublist_cons_self e es).filter _)

theorem UsableMap.layout (h : UsableMap memmap) :
    Layout (highestAddr memmap / archPageSize) (usableSpans memmap) := by
  have hal : ∀ e ∈ memmap.filter archMemmapIsUsable,
      archPageSize ∣ e.base ∧ archPageSize ∣ e.length ∧ 0 < e.length := by
    intro e he
    obtain ⟨hm, hu⟩ := mem_filter.mp he
    exact ⟨(h.aligned e hm hu).1, (h.aligned e hm hu).2, h.nonempty e hm hu⟩
  have hpr : (usableSpans memmap).Pairwise Span.Disjoint := by
    refine pairwise_map.mpr (h.disjoint.imp_of_mem fun {e f} he hf hd => ?_)
    simp only [archPageSize, MemmapEntry.top, Span.Disjoint, Span.stop, MemmapEntry.span] at *
    omega
  refine ⟨?_, fun p => cover_le_one_of_pairwise hpr p, ?_⟩
  · intro b hb
    obtain ⟨e, he, rfl⟩ := mem_map.mp hb
    have := hal e he
    simp only [archPageSize, MemmapEntry.span] at *
    omega
  · intro p hp
    obtain ⟨b, hb, hcv⟩ := cover_pos.mp hp
    obtain ⟨e, he, rfl⟩ := mem_map.mp hb
    have := top_le_highestAddr (mem_filter.mp he).1
    simp only [archPageSize, MemmapEntry.span, MemmapEntry.top, Span.Covers, Span.stop] at *
    omega

theorem usableSpans_cons : usableSpans (e :: es) =
    if archMemmapIsUsable e then e.span :: usableSpans es else usableSpans es := by
  unfold usableSpans
  by_cases hu : archMemmapIsUsable e <;> simp [hu]

theorem usableSpans_append_cons : usableSpans (e :: es) = usableSpans [e] ++ usableSpans es := by
  rw [usableSpans_cons, usableSpans_cons]
  split <;> rfl

theorem pageSize_dvd_alignedSize (hi : ℕ) : archPageSize ∣ pageMetaAlignedSize hi :=
  dvd_mul_left _ _

theorem remainder_hits_le (hb : archPageSize ∣ e.base) (hl : e.length ≥ pageMetaAlignedSize hi) :
    (Span.mk ((e.base + pageMetaAlignedSize hi) / archPageSize)
      ((e.length - pageMetaAlignedSize hi) / archPageSize)).hits p ≤ e.span.hits p := by
  obtain ⟨k, hk⟩ := pageSize_dvd_alignedSize hi
  unfold Span.hits
  split
  · refine le_of_eq (if_pos ?_).symm
    simp only [archPageSize, MemmapEntry.span, Span.stop] at *
    omega
  · exact Nat.zero_le _

theorem entryBlocks_cover_le (hb : archMemmapIsUsable e → archPageSize ∣ e.base) :
    cover (entryBlocks hi placed e) p ≤ cover (usableSpans [e]) p := by
  rw [entryBlocks, usableSpans_cons]
  by_cases hu : archMemmapIsUsable e
  · split_ifs with hfi hrest
    · exact Nat.add_le_add (remainder_hits_le (hb hu) hfi.2) (Nat.zero_le _)
    · exact Nat.zero_le _
    · exact le_rfl
  · rw [if_pos hu]
    exact Nat.zero_le _

theorem entryBlocks_positive (h : archMemmapIsUsable e → archPageSize ∣ e.length ∧ 0 < e.length) :
    Positive (entryBlocks hi placed e) := by
  rw [entryBlocks]
  by_cases hu : archMemmapIsUsable e
  · split_ifs with hfi hrest
    · exact Positive.cons.mpr ⟨Nat.div_pos (by omega) (by decide), Positive.nil⟩
    · exact Positive.nil
    · have hln := Nat.le_of_dvd (h hu).2 (h hu).1
      exact Positive.cons.mpr ⟨Nat.div_pos hln (by decide), Positive.nil⟩
  · rw [if_pos hu]
    exact Positive.nil

theorem bootBlocksFrom_cover_le (h : UsableMap es) :
    cover (bootBlocksFrom hi placed es) p ≤ cover (usableSpans es) p := by
  induction es generalizing placed with
  | nil => simp [bootBlocksFrom]
  | cons e es ih =>
    rw [bootBlocksFrom, usableSpans_append_cons, cover_append, cover_append]
    exact add_le_add (entryBlocks_cover_le fun hu => (h.aligned e (by simp) hu).1) (ih h.tail)

theorem bootBlocksFrom_positive (h : UsableMap es) : Positive (bootBlocksFrom hi placed es) := by
  induction es generalizing placed with
  | nil => exact Positive.nil
  | cons e es ih =>
    refine Positive.append.mpr ⟨entryBlocks_positive fun hu => ?_, ih h.tail⟩
    exact ⟨(h.aligned e (by simp) hu).2, h.nonempty e (by simp) hu⟩

theorem bootBlocks_layout (h : UsableMap memmap) :
    Layout (highestAddr memmap / archPageSize) (bootBlocks memmap) :=
  h.layout.of_cover_le (bootBlocksFrom_positive h) fun _ => bootBlocksFrom_cover_le h

theorem archPhysToHhdm_eq {base : ℕ} (h : archPageSize ∣ base) :
    archPhysToHhdm base = frameAddr (base / archPageSize) := by
  rw [frameAddr, Nat.div_mul_cancel h]

theorem addFreeBlock_refines (h : Threads s.freeList bs) (hf : b.start ∉ starts bs)
    (hln : bs.length ≤ s.frames) :
    ∃ q, addFreeBlock s (b.start * archPageSize) b.size = some { s with freeList := q } ∧
      Rethreads s.freeList q (b.start :: starts bs) (addOrdered b bs) := by
  have hen : archPhysToHhdm (b.start * archPageSize) = frameAddr b.start := by rw [frameAddr]
  obtain ⟨q, hq, hr⟩ := freelistAddOrderedNolock_refines (h.setPages_fresh hf b.size) hf
    (entryPages_setPages _ _ _) hln
  refine ⟨q, ?_, hr.threads, fun a ha => ?_⟩
  · simp only [addFreeBlock, hen, hq, bind_eq_bind, bind_some]
  · rw [hr.frame a ha, setPages_frame (ha _ (by simp))]

structure SameShape (a a' : PageMetaArray) : Prop where
  buffer : a'.buffer = a.buffer
  len : a'.len = a.len
  reservedStart : a'.reservedStart = a.reservedStart
  extendedLen : a'.extendedLen = a.extendedLen

theorem SameShape.refl (a : PageMetaArray) : SameShape a a := ⟨rfl, rfl, rfl, rfl⟩

theorem SameShape.trans {a₁ a₂ a₃ : PageMetaArray} (h : SameShape a₁ a₂) (k : SameShape a₂ a₃) :
    SameShape a₁ a₃ :=
  ⟨k.1.trans h.1, k.2.trans h.2, k.3.trans h.3, k.4.trans h.4⟩

theorem fill_sameShape (a : PageMetaArray) (ref : MetaRef) (v : PageMeta) (n : ℕ) :
    SameShape a (a.fill ref v n) := by
  cases ref with
  | entry i => exact ⟨rfl, rfl, rfl, rfl⟩
  | fake =>
    unfold PageMetaArray.fill
    dsimp only
    split <;> exact ⟨rfl, rfl, rfl, rfl⟩

theorem pageMetaSet_sameShape {a a' : PageMetaArray} {phys n : ℕ} {v : PageMeta}
    (h : pageMetaSet a phys v n = some a') : SameShape a a' := by
  unfold pageMetaSet at h
  dsimp only at h
  split at h
  · obtain ⟨ref, -, rfl⟩ := map_eq_some_iff.mp h
    exact fill_sameShape _ _ _ _
  · simp at h

theorem addAll_append {l k : List Span} : addAll bs (l ++ k) = addAll (addAll bs l) k := by
  induction l generalizing bs with
  | nil => rfl
  | cons b l ih => exact ih

theorem placePageMeta_eq (h : placePageMeta hi ha s e = some s') :
    s'.freeList = s.freeList ∧ s'.frames = s.frames ∧ pageMetaSet { s.pageMeta with
        buffer := some e.base
        entries := fun _ => .zero
        len := hi / archPageSize
        reservedStart := hi / archPageSize
        extendedLen := ha / archPageSize } e.base reservedMeta (pageMetaPages hi) =
          some s'.pageMeta := by
  simp only [placePageMeta, bind_eq_bind, bind_eq_some_iff] at h
  obtain ⟨a, ha, hs⟩ := h
  cases hs
  exact ⟨rfl, rfl, ha⟩

def addBlocks (s : State) : List Span → Option State
  | [] => some s
  | b :: _ => addFreeBlock s (b.start * archPageSize) b.size

theorem addBlocks_pageMeta {l : List Span} (h : addBlocks s l = some s') :
    s'.pageMeta = s.pageMeta := by
  cases l with
  | nil => exact some.inj h ▸ rfl
  | cons b l =>
    obtain ⟨q, -, hs⟩ := bind_eq_some_iff.mp h
    cases hs
    rfl

theorem buildStep_eq (hb : archMemmapIsUsable e → archPageSize ∣ e.base) : buildStep hi ha s e =
      (if s.pageMeta.buffer = none ∧ fitsPageMeta hi e then placePageMeta hi ha s e
        else some s).bind fun s₁ => addBlocks s₁ (entryBlocks hi s.pageMeta.buffer.isSome e) := by
  have hno : s.pageMeta.buffer.isSome = false ↔ s.pageMeta.buffer = none := by simp
  unfold buildStep entryBlocks
  by_cases hu : archMemmapIsUsable e
  · have hbs := hb hu
    have hsa := Nat.div_mul_cancel (Nat.dvd_add hbs (pageSize_dvd_alignedSize hi))
    have hft : fitsPageMeta hi e ↔ e.length ≥ pageMetaAlignedSize hi := by
      simp [fitsPageMeta, hu]
    rw [if_neg (not_not.mpr hu), if_neg (not_not.mpr hu)]
    simp only [hft, hno]
    by_cases hfi : s.pageMeta.buffer = none ∧ e.length ≥ pageMetaAlignedSize hi
    · simp only [if_pos hfi, bind_eq_bind]
      congr 1
      funext s₁
      split
      · rw [addBlocks, hsa]
      · rfl
    · simp only [if_neg hfi, bind_some, addBlocks, MemmapEntry.span, Nat.div_mul_cancel hbs]
  · have hft : ¬ fitsPageMeta hi e := by simp [fitsPageMeta, hu]
    rw [if_pos hu, if_pos hu, if_neg (fun hc => hft hc.2)]
    rfl

theorem entryBlocks_cases : entryBlocks hi placed e = [] ∨ ∃ b, entryBlocks hi placed e = [b] := by
  unfold entryBlocks
  split_ifs <;> simp

theorem buildStep_cases (hb : archMemmapIsUsable e → archPageSize ∣ e.base)
    (h : buildStep hi ha s e = some s') :
    ∃ s₁, (s.pageMeta.buffer = none ∧ fitsPageMeta hi e ∧ placePageMeta hi ha s e = some s₁ ∨
        ¬ (s.pageMeta.buffer = none ∧ fitsPageMeta hi e) ∧ s₁ = s) ∧
      addBlocks s₁ (entryBlocks hi s.pageMeta.buffer.isSome e) = some s' := by
  rw [buildStep_eq hb] at h
  obtain ⟨s₁, hs₁, had⟩ := bind_eq_some_iff.mp h
  refine ⟨s₁, ?_, had⟩
  split at hs₁
  · exact Or.inl ⟨‹_ ∧ _›.1, ‹_ ∧ _›.2, hs₁⟩
  · exact Or.inr ⟨‹_›, (some.inj hs₁).symm⟩

structure Built (s s' : State) (bs boot : List Span) : Prop where
  rethreads : Rethreads s.freeList s'.freeList (starts bs ++ starts boot) (addAll bs boot)
  frames : s'.frames = s.frames

theorem starts_addAll_subset {boot : List Span} :
    starts (addAll bs boot) ⊆ starts bs ++ starts boot := by
  induction boot generalizing bs with
  | nil => simp [addAll]
  | cons b l ih =>
    intro p hp
    have hp := ih hp
    simp only [starts_cons, mem_append, mem_cons] at hp ⊢
    rcases hp with hp | hp
    · have := starts_addOrdered_subset hp
      simp only [mem_cons] at this
      exact this.elim (fun h => Or.inr (Or.inl h)) Or.inl
    · exact Or.inr (Or.inr hp)

theorem Built.trans {s₁ s₂ : State} {l k : List Span} (h : Built s s₁ bs l)
    (h' : Built s₁ s₂ (addAll bs l) k) : Built s s₂ bs (l ++ k) := by
  refine ⟨?_, h'.frames.trans h.frames⟩
  rw [addAll_append]
  refine (h.rethreads.mono ?_).trans (h'.rethreads.mono ?_)
  · intro p hp
    rw [starts_append, ← append_assoc]
    exact mem_append_left _ hp
  · intro p hp
    rw [starts_append, ← append_assoc]
    exact mem_append.mpr ((mem_append.mp hp).imp (fun h => starts_addAll_subset h) id)

theorem addBlocks_refines {l : List Span} (hon : l = [] ∨ ∃ b, l = [b])
    (ht : Threads s.freeList bs) (hl : Layout s.frames (bs ++ l)) :
    ∃ s', addBlocks s l = some s' ∧ s'.pageMeta = s.pageMeta ∧ Built s s' bs l := by
  rcases hon with rfl | ⟨b, rfl⟩
  · exact ⟨s, rfl, rfl, ⟨ht, fun _ _ => rfl⟩, rfl⟩
  · have hl' : Layout s.frames (b :: bs) := by
      obtain ⟨h₁, h₂⟩ := Positive.append.mp hl.positive
      refine hl.of_cover_le (Positive.cons.mpr ⟨h₂ b (by simp), h₁⟩) fun p => ?_
      rw [cover_append, cover_cons, cover_cons, cover_nil]
      omega
    obtain ⟨q, hq, hr⟩ := addFreeBlock_refines ht hl'.start_notMem hl.left.length_le
    exact ⟨_, hq, rfl, hr.mono (by intro p; simp [or_comm]), rfl⟩

theorem buildStep_refines (hb : archMemmapIsUsable e → archPageSize ∣ e.base)
    (ht : Threads s.freeList bs)
    (hl : Layout s.frames (bs ++ entryBlocks hi s.pageMeta.buffer.isSome e))
    (h : buildStep hi ha s e = some s') :
    Built s s' bs (entryBlocks hi s.pageMeta.buffer.isSome e) ∧
      s'.pageMeta.buffer.isSome = (s.pageMeta.buffer.isSome || fitsPageMeta hi e) := by
  obtain ⟨s₁, hpl, had⟩ := buildStep_cases hb h
  obtain ⟨hfe, hfr, hsm⟩ : s₁.freeList = s.freeList ∧ s₁.frames = s.frames ∧
      s₁.pageMeta.buffer.isSome = (s.pageMeta.buffer.isSome || fitsPageMeta hi e) := by
    rcases hpl with ⟨hno, hfi, hp⟩ | ⟨hnt, rfl⟩
    · obtain ⟨h₁, h₂, h₃⟩ := placePageMeta_eq hp
      refine ⟨h₁, h₂, ?_⟩
      rw [(pageMetaSet_sameShape h₃).buffer, hfi, Bool.or_true]
      rfl
    · refine ⟨rfl, rfl, ?_⟩
      cases hbf : s₁.pageMeta.buffer with
      | none => simpa [hbf] using hnt
      | some _ => rfl
  rw [← hfe] at ht
  rw [← hfr] at hl
  obtain ⟨s₂, hs₂, hmt, hbl⟩ := addBlocks_refines entryBlocks_cases ht hl
  obtain rfl : s₂ = s' := some.inj (hs₂.symm.trans had)
  exact ⟨⟨hfe ▸ hbl.rethreads, hbl.frames.trans hfr⟩, hmt ▸ hsm⟩

theorem build_refines (hmp : UsableMap es) (ht : Threads s.freeList bs)
    (hl : Layout s.frames (bs ++ bootBlocksFrom hi s.pageMeta.buffer.isSome es))
    (h : es.foldlM (buildStep hi ha) s = some s') :
    Built s s' bs (bootBlocksFrom hi s.pageMeta.buffer.isSome es) := by
  induction es generalizing s bs with
  | nil =>
    obtain rfl : s = s' := by simpa using h
    exact ⟨⟨ht, fun _ _ => rfl⟩, rfl⟩
  | cons e es ih =>
    obtain ⟨s₁, hs₁, h⟩ := bind_eq_some_iff.mp h
    rw [bootBlocksFrom, ← append_assoc] at hl
    obtain ⟨hst, hsm⟩ := buildStep_refines (fun hu => (hmp.aligned e (by simp) hu).1) ht
      hl.left hs₁
    rw [← hsm] at hl
    rw [bootBlocksFrom, ← hsm]
    refine hst.trans (ih hmp.tail hst.rethreads.threads ?_ h)
    rw [hst.frames]
    exact hl.addAll_left

theorem reserve_sameShape {a a' : PageMetaArray} (h : es.foldlM (reserveStep hi) a = some a') :
    SameShape a a' := by
  refine Runs.foldlM_invariant (SameShape a) (.refl a) (fun a₁ e a₂ _ h₁ h₂ => h₁.trans ?_) h
  unfold reserveStep at h₂
  split at h₂
  · exact pageMetaSet_sameShape h₂
  · cases h₂
    exact .refl _

theorem build_reservedStart_le (hb : ∀ e ∈ es, archMemmapIsUsable e → archPageSize ∣ e.base)
    (h₀ : s.pageMeta.reservedStart ≤ hi / archPageSize)
    (h : es.foldlM (buildStep hi ha) s = some s') :
    s'.pageMeta.reservedStart ≤ hi / archPageSize := by
  refine Runs.foldlM_invariant (fun s => s.pageMeta.reservedStart ≤ hi / archPageSize) h₀
    (fun s e s' he h₁ h₂ => ?_) h
  obtain ⟨s₁, hpl, had⟩ := buildStep_cases (hb e he) h₂
  rw [addBlocks_pageMeta had]
  rcases hpl with ⟨-, -, hp⟩ | ⟨-, rfl⟩
  · obtain ⟨-, -, hse⟩ := placePageMeta_eq hp
    rw [(pageMetaSet_sameShape hse).reservedStart]
  · exact h₁

def OnFrame (p a : ℕ) : Prop := frameAddr p ≤ a ∧ a < frameAddr p + archPageSize

structure Booted (memmap : List MemmapEntry) (s : State) : Prop where
  threads : Threads s.freeList (addAll [] (bootBlocks memmap))
  frames : s.frames = highestAddr memmap / archPageSize
  indexed : s.pageMeta.reservedStart ≤ s.frames
  clean : ∀ p, 0 < cover (usableSpans memmap) p → ∀ a, OnFrame p a →
    (∀ r ∈ starts (bootBlocks memmap), ¬ InHeader r a) → s.freeList.mem a = 0

theorem UsableMap.zero_of_onFrame (h : UsableMap memmap) (hp : 0 < cover (usableSpans memmap) p)
    {a : ℕ} (ha : OnFrame p a) : (sizing mem memmap).freeList.mem a = 0 := by
  obtain ⟨b, hb, hcv⟩ := cover_pos.mp hp
  obtain ⟨e, he, rfl⟩ := mem_map.mp hb
  obtain ⟨hm, hu⟩ := mem_filter.mp he
  obtain ⟨h₁, h₂⟩ := h.aligned e hm hu
  have hbs := archPhysToHhdm_eq h₁
  refine sizing_freeList.2 e hm hu a ?_ ?_ <;>
  · simp only [OnFrame, frameAddr_eq, Span.Covers, Span.stop, MemmapEntry.span, archPageSize] at *
    omega

theorem comMmPmmInit_booted (hmp : UsableMap memmap) (h : comMmPmmInit mem memmap = some s) :
    Booted memmap s := by
  simp only [comMmPmmInit, bind_eq_bind, bind_eq_some_iff, some.injEq,
    sizing_highestIndexedAddr, sizing_highestAddr] at h
  obtain ⟨s₁, hbd, a, hrs, rfl⟩ := h
  have hfr : (sized mem memmap).frames = highestAddr memmap / archPageSize := by
    rw [sized, sizing_highestAddr]
  have hem : Threads (sized mem memmap).freeList [] := sizing_freeList.1
  have hbl := build_refines hmp hem (by rw [hfr]; exact bootBlocks_layout hmp)
    hbd
  refine ⟨hbl.rethreads.threads, hbl.frames.trans hfr, ?_, ?_⟩
  · rw [(reserve_sameShape hrs).reservedStart, hbl.frames, hfr]
    exact (build_reservedStart_le (fun e he hu => (hmp.aligned e he hu).1) (Nat.zero_le _)
      hbd).trans (Nat.div_le_div_right highestIndexedAddr_le)
  · intro p hp a ha hr
    rw [hbl.rethreads.frame a hr]
    exact hmp.zero_of_onFrame hp ha

end PhysicalMemory
