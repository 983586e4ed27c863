import Mathlib.Data.List.Pairwise
import SalernosKernel.PhysicalMemoryRuns

/-! # Page metadata at the end of initialisation -/
namespace PhysicalMemory

open Spans BlockList List MemmapEntry

structure WholeMap (memmap : List MemmapEntry) : Prop where
  aligned : ∀ e ∈ memmap, archPageSize ∣ e.base ∧ archPageSize ∣ e.length
  nonempty : ∀ e ∈ memmap, 0 < e.length
  disjoint : memmap.Pairwise fun e f => e.top ≤ f.base ∨ f.top ≤ e.base
  fits : ∃ e ∈ memmap, fitsPageMeta (highestIndexedAddr memmap) e

variable {memmap es : List MemmapEntry} {e e₀ : MemmapEntry} {a a' : PageMetaArray} {s s' : State}
  {bs : List Span} {hi ha n p j phys : ℕ} {R : ℕ → Prop} {v : PageMeta} {mem : ℕ → ℕ}
  {placed : Bool}

theorem WholeMap.usableMap (h : WholeMap memmap) : UsableMap memmap :=
  ⟨fun e he _ => h.aligned e he, fun e he _ => h.nonempty e he, h.disjoint.sublist filter_sublist⟩

structure MetaState (hi ha : ℕ) (R : ℕ → Prop) (a : PageMetaArray) : Prop where
  len : a.len = hi / archPageSize
  reservedStart : a.reservedStart = hi / archPageSize
  extendedLen : a.extendedLen = ha / archPageSize
  fakeEntry : a.fakeEntry = reservedMeta
  marked : ∀ j, R j → a.entries j = reservedMeta
  unmarked : ∀ j, ¬ R j → a.entries j = .zero

theorem MetaState.congr {Q : ℕ → Prop} (h : MetaState hi ha R a) (hRQ : ∀ j, R j ↔ Q j) :
    MetaState hi ha Q a :=
  ⟨h.len, h.reservedStart, h.extendedLen, h.fakeEntry, fun j hj => h.marked j ((hRQ j).mpr hj),
    fun j hj => h.unmarked j (mt (hRQ j).mp hj)⟩

theorem MetaState.set (h : MetaState hi ha R a) (hhi : hi ≤ ha) (hp : archPageSize ∣ phys)
    (hn : 0 < n) (htp : phys + n * archPageSize ≤ hi) :
    ∃ a', pageMetaSet a phys reservedMeta n = some a' ∧
      MetaState hi ha (fun j => R j ∨ (Span.mk (phys / archPageSize) n).Covers j) a' := by
  obtain ⟨k, rfl⟩ := hp
  have hid : archPageSize * k / archPageSize = k := Nat.mul_div_cancel_left _ (by decide)
  have hed : (archPageSize * k + n * archPageSize) / archPageSize = k + n := by
    rw [Nat.mul_comm n, ← Nat.mul_add, Nat.mul_div_cancel_left _ (by decide)]
  have hlt : k + n ≤ hi / archPageSize := hed ▸ Nat.div_le_div_right htp
  have het : hi / archPageSize ≤ ha / archPageSize := Nat.div_le_div_right hhi
  have hdc : sizeDec (k + n) = k + n - 1 := if_neg (by omega)
  have hgr : k < a.len ∧ k + n - 1 < a.len := by
    rw [h.len]
    omega
  refine ⟨a.fill (.entry k) reservedMeta n, ?_, ?_⟩
  · have hgt : pageMetaGet a (archPageSize * k) = some (.entry k) := by
      have h₁ : k < a.extendedLen := by rw [h.extendedLen]; omega
      have h₂ : k < a.reservedStart := by rw [h.reservedStart]; omega
      simp only [pageMetaGet, hid, if_pos h₁, if_pos h₂]
    simp only [pageMetaSet, hid, hed, hdc, if_pos hgr, hgt, Option.map_some]
  · rw [hid]
    refine ⟨h.len, h.reservedStart, h.extendedLen, h.fakeEntry, fun j hj => ?_, fun j hj => ?_⟩
    · by_cases hc : k ≤ j ∧ j < k + n
      · exact if_pos hc
      · exact (if_neg hc).trans (h.marked j (hj.resolve_right hc))
    · obtain ⟨h₁, h₂⟩ := not_or.mp hj
      exact (if_neg h₂).trans (h.unmarked j h₁)

def ReservedBelow (hi : ℕ) (e : MemmapEntry) : Prop := ¬ archMemmapIsUsable e ∧ e.top < hi

theorem MetaState.reserveStep (h : MetaState hi ha R a) (hhi : hi ≤ ha)
    (hb : archPageSize ∣ e.base) (hl : archPageSize ∣ e.length) (hps : 0 < e.length) :
    ∃ a', reserveStep hi a e = some a' ∧
      MetaState hi ha (fun j => R j ∨ ReservedBelow hi e ∧ e.span.Covers j) a' := by
  unfold PhysicalMemory.reserveStep
  by_cases hc : ¬ archMemmapIsUsable e ∧ e.top < hi
  · have hcl : pagesFor e.length = e.length / archPageSize := by
      obtain ⟨k, hk⟩ := hl
      rw [hk]
      simp only [pagesFor, archPageSize]
      omega
    have hpg : 0 < e.length / archPageSize :=
      Nat.div_pos (Nat.le_of_dvd hps hl) (by decide)
    obtain ⟨a', ha', hm⟩ := h.set hhi hb hpg (by
      rw [Nat.div_mul_cancel hl]
      exact hc.2.le)
    rw [if_pos hc, hcl]
    exact ⟨a', ha', hm.congr fun j => or_congr_right (by simp [ReservedBelow, hc, MemmapEntry.span])⟩
  · rw [if_neg hc]
    exact ⟨a, rfl, h.congr fun j => ⟨Or.inl, fun h => h.resolve_right fun h' => hc h'.1⟩⟩

theorem MetaState.reserve (h : MetaState hi ha R a) (hhi : hi ≤ ha)
    (hal : ∀ e ∈ es, archPageSize ∣ e.base ∧ archPageSize ∣ e.length) (hne : ∀ e ∈ es, 0 < e.length) :
    ∃ a', es.foldlM (PhysicalMemory.reserveStep hi) a = some a' ∧
      MetaState hi ha (fun j => R j ∨ ∃ e ∈ es, ReservedBelow hi e ∧ e.span.Covers j) a' := by
  induction es generalizing a R with
  | nil => exact ⟨a, rfl, h.congr fun j => by simp⟩
  | cons e es ih =>
    obtain ⟨hb, hl⟩ := hal e (by simp)
    obtain ⟨a₁, ha₁, h₁⟩ := h.reserveStep hhi hb hl (hne e (by simp))
    obtain ⟨a', ha', h'⟩ := ih h₁ (fun f hf => hal f (by simp [hf])) (fun f hf => hne f (by simp [hf]))
    refine ⟨a', ?_, h'.congr fun j => ?_⟩
    · rw [foldlM_cons, ha₁]
      exact ha'
    · rw [exists_mem_cons_iff, or_assoc]

def arraySpan (hi : ℕ) (e : MemmapEntry) : Span := ⟨e.base / archPageSize, pageMetaPages hi⟩

theorem fitsPageMeta_iff :
    fitsPageMeta hi e ↔ archMemmapIsUsable e ∧ e.length ≥ pageMetaAlignedSize hi := by
  simp [fitsPageMeta]

theorem pageMetaPages_pos (h : archPageSize ≤ hi) : 0 < pageMetaPages hi := by
  simp only [pageMetaPages, pagesFor, pageMetaSize, sizeofPageMeta, archPageSize] at *
  omega

theorem placePageMeta_total (hfi : fitsPageMeta hi e) (hb : archPageSize ∣ e.base)
    (hl : archPageSize ∣ e.length) (hps : 0 < e.length) (htp : e.top ≤ hi) (hhi : hi ≤ ha)
    (hfk : s.pageMeta.fakeEntry = reservedMeta) :
    ∃ s', placePageMeta hi ha s e = some s' ∧ MetaState hi ha (arraySpan hi e).Covers s'.pageMeta := by
  have hpa : archPageSize ≤ hi := by
    have := Nat.le_of_dvd hps hl
    unfold top at htp
    omega
  have hrm : e.base + pageMetaPages hi * archPageSize ≤ hi := by
    have : pageMetaPages hi * archPageSize ≤ e.length := (fitsPageMeta_iff.mp hfi).2
    unfold top at htp
    omega
  have hem : MetaState hi ha (fun _ => False) { s.pageMeta with
      buffer := some e.base
      entries := fun _ => .zero
      len := hi / archPageSize
      reservedStart := hi / archPageSize
      extendedLen := ha / archPageSize } :=
    ⟨rfl, rfl, rfl, hfk, fun _ h => h.elim, fun _ _ => rfl⟩
  obtain ⟨a, hst, hm⟩ := hem.set hhi hb (pageMetaPages_pos hpa) hrm
  refine ⟨_, by simp only [placePageMeta, hst, Option.bind_eq_bind, Option.bind_some]; rfl, ?_⟩
  exact hm.congr fun j => by rw [false_or, arraySpan]

theorem buildStep_total (hmp : UsableMap (e :: es)) (htp : archMemmapIsUsable e → e.top ≤ hi)
    (hhi : hi ≤ ha) (ht : Threads s.freeList bs)
    (hl : Layout s.frames (bs ++ entryBlocks hi s.pageMeta.buffer.isSome e))
    (hfk : s.pageMeta.buffer = none → s.pageMeta.fakeEntry = reservedMeta) :
    ∃ s', buildStep hi ha s e = some s' ∧ (s.pageMeta.buffer = none ∧ fitsPageMeta hi e →
        MetaState hi ha (arraySpan hi e).Covers s'.pageMeta) ∧
      (¬ (s.pageMeta.buffer = none ∧ fitsPageMeta hi e) → s'.pageMeta = s.pageMeta) := by
  rw [buildStep_eq fun hu => (hmp.aligned e (by simp) hu).1]
  by_cases hfi : s.pageMeta.buffer = none ∧ fitsPageMeta hi e
  · have hu := (fitsPageMeta_iff.mp hfi.2).1
    obtain ⟨hb, hln⟩ := hmp.aligned e (by simp) hu
    obtain ⟨s₁, hs₁, hm⟩ := placePageMeta_total hfi.2 hb hln (hmp.nonempty e (by simp) hu)
      (htp hu) hhi (hfk hfi.1)
    obtain ⟨hfr, hfm, -⟩ := placePageMeta_eq hs₁
    obtain ⟨s₂, hs₂, hmt, -⟩ := addBlocks_refines entryBlocks_cases (hfr ▸ ht) (hfm ▸ hl)
    rw [if_pos hfi, hs₁]
    exact ⟨s₂, hs₂, fun _ => hmt ▸ hm, fun hn => absurd hfi hn⟩
  · obtain ⟨s₂, hs₂, hmt, -⟩ := addBlocks_refines entryBlocks_cases ht hl
    rw [if_neg hfi]
    exact ⟨s₂, hs₂, fun hc => absurd hc hfi, fun _ => hmt⟩

theorem build_total (hmp : UsableMap es) (htp : ∀ e ∈ es, archMemmapIsUsable e → e.top ≤ hi)
    (hhi : hi ≤ ha) (ht : Threads s.freeList bs)
    (hl : Layout s.frames (bs ++ bootBlocksFrom hi s.pageMeta.buffer.isSome es))
    (hfk : s.pageMeta.buffer = none → s.pageMeta.fakeEntry = reservedMeta) :
    ∃ s', es.foldlM (buildStep hi ha) s = some s' ∧
      (s.pageMeta.buffer ≠ none → s'.pageMeta = s.pageMeta) ∧
      (s.pageMeta.buffer = none → ∀ e₀, es.find? (fitsPageMeta hi) = some e₀ →
        MetaState hi ha (arraySpan hi e₀).Covers s'.pageMeta) := by
  induction es generalizing s bs with
  | nil => exact ⟨s, rfl, fun _ => rfl, fun _ e₀ h => by simp at h⟩
  | cons e es ih =>
    rw [bootBlocksFrom, ← append_assoc] at hl
    obtain ⟨s₁, hs₁, hpl, hkp⟩ := buildStep_total hmp (htp e (by simp)) hhi ht hl.left hfk
    obtain ⟨hbl, hsm⟩ := buildStep_refines (fun hu => (hmp.aligned e (by simp) hu).1) ht
      hl.left hs₁
    rw [← hsm, ← hbl.frames] at hl
    have hfk₁ : s₁.pageMeta.buffer = none → s₁.pageMeta.fakeEntry = reservedMeta := by
      intro hno
      have hnt : ¬ (s.pageMeta.buffer = none ∧ fitsPageMeta hi e) := by
        rintro ⟨-, hfi⟩
        simp [hno, hfi] at hsm
      rw [hkp hnt] at hno ⊢
      exact hfk hno
    obtain ⟨s', hs', haf, hbf⟩ := ih hmp.tail (fun f hf => htp f (by simp [hf]))
      hbl.rethreads.threads hl.addAll_left hfk₁
    refine ⟨s', by rw [foldlM_cons, hs₁]; exact hs', fun hne => ?_, fun hno e₀ hfd => ?_⟩
    · have hm := hkp fun hc => hne hc.1
      rw [haf (hm ▸ hne), hm]
    · by_cases hfi : fitsPageMeta hi e
      · obtain rfl : e = e₀ := by simpa [hfi] using hfd
        rw [haf (by intro h; simp [h, hfi] at hsm)]
        exact hpl ⟨hno, hfi⟩
      · have hm := hkp fun hc => hfi hc.2
        exact hbf (hm ▸ hno) e₀ (by simpa [hfi] using hfd)

theorem entryBlocks_of_not_taken (h : placed = true ∨ ¬ fitsPageMeta hi e) :
    entryBlocks hi placed e = usableSpans [e] := by
  rw [fitsPageMeta_iff] at h
  rw [usableSpans_cons, entryBlocks]
  by_cases hu : archMemmapIsUsable e
  · have hnt : ¬ (placed = false ∧ e.length ≥ pageMetaAlignedSize hi) := by
      rintro ⟨hp, hl⟩
      rcases h with h | h
      · simp [hp] at h
      · exact h ⟨hu, hl⟩
    rw [if_neg (not_not.mpr hu), if_neg hnt, if_pos hu]
    rfl
  · rw [if_pos hu, if_neg hu]
    rfl

theorem entryBlocks_of_taken (hfi : fitsPageMeta hi e) (hb : archPageSize ∣ e.base)
    (hl : archPageSize ∣ e.length) :
    cover (entryBlocks hi false e) p + (arraySpan hi e).hits p = cover (usableSpans [e]) p := by
  obtain ⟨hu, hge⟩ := fitsPageMeta_iff.mp hfi
  obtain ⟨b, hb⟩ := hb
  obtain ⟨k, hk⟩ := hl
  obtain ⟨m, rfl⟩ : ∃ m, k = pageMetaPages hi + m := by
    refine ⟨k - pageMetaPages hi, ?_⟩
    simp only [pageMetaAlignedSize, archPageSize] at *
    omega
  have hsp : e.span = ⟨b, pageMetaPages hi + m⟩ := by
    rw [MemmapEntry.span, hb, hk, Nat.mul_div_cancel_left _ (by decide),
      Nat.mul_div_cancel_left _ (by decide)]
  have har : arraySpan hi e = ⟨b, pageMetaPages hi⟩ := by
    rw [arraySpan, hb, Nat.mul_div_cancel_left _ (by decide)]
  rw [usableSpans_cons, if_pos hu, cover_cons, hsp, hits_split, har, entryBlocks,
    if_neg (not_not.mpr hu), if_pos ⟨rfl, hge⟩]
  split
  · have hsa : (e.base + pageMetaAlignedSize hi) / archPageSize = b + pageMetaPages hi := by
      simp only [pageMetaAlignedSize, archPageSize] at *
      omega
    have hsz : (e.length - pageMetaAlignedSize hi) / archPageSize = m := by
      simp only [pageMetaAlignedSize, archPageSize] at *
      omega
    rw [hsa, hsz, cover_cons]
    simp only [cover_nil, usableSpans, filter_nil, map_nil]
    omega
  · obtain rfl : m = 0 := by
      simp only [pageMetaAlignedSize, archPageSize] at *
      omega
    simp [hits_empty, usableSpans]

theorem bootBlocksFrom_placed_cover :
    cover (bootBlocksFrom hi true es) p = cover (usableSpans es) p := by
  induction es with
  | nil => rfl
  | cons e es ih =>
    rw [usableSpans_append_cons, bootBlocksFrom, entryBlocks_of_not_taken (Or.inl rfl),
      Bool.true_or, cover_append, cover_append, ih]

theorem bootBlocksFrom_cover
    (hal : ∀ e ∈ es, archMemmapIsUsable e → archPageSize ∣ e.base ∧ archPageSize ∣ e.length)
    (hfd : es.find? (fitsPageMeta hi) = some e₀) :
    cover (bootBlocksFrom hi false es) p + (arraySpan hi e₀).hits p = cover (usableSpans es) p := by
  induction es with
  | nil => simp at hfd
  | cons e es ih =>
    rw [bootBlocksFrom, usableSpans_append_cons, cover_append, cover_append]
    by_cases hfi : fitsPageMeta hi e
    · obtain rfl : e = e₀ := by simpa [hfi] using hfd
      obtain ⟨hb, hl⟩ := hal e (by simp) (fitsPageMeta_iff.mp hfi).1
      rw [hfi, Bool.or_true, bootBlocksFrom_placed_cover, ← entryBlocks_of_taken hfi hb hl]
      omega
    · have hrs := ih (fun f hf => hal f (by simp [hf])) (by simpa [hfi] using hfd)
      rw [entryBlocks_of_not_taken (Or.inr hfi), Bool.eq_false_iff.mpr hfi, Bool.or_false, ← hrs]
      omega

theorem le_foldl_indexed (m : ℕ) : m ≤ memmap.foldl (fun h e =>
    if archMemmapIsReclaimable e ∨ archMemmapIsUsable e then max h e.top else h) m := by
  induction memmap generalizing m with
  | nil => exact le_rfl
  | cons e es ih =>
    refine le_trans ?_ (ih _)
    dsimp only
    split <;> omega

theorem top_le_highestIndexedAddr (he : e ∈ memmap)
    (hc : archMemmapIsReclaimable e ∨ archMemmapIsUsable e) : e.top ≤ highestIndexedAddr memmap := by
  obtain ⟨l, k, rfl⟩ := append_of_mem he
  rw [highestIndexedAddr, foldl_append, foldl_cons, if_pos hc]
  exact (le_max_right _ _).trans (le_foldl_indexed _)

theorem exists_top_eq_highestIndexedAddr (he : e ∈ memmap) (hu : archMemmapIsUsable e)
    (hps : 0 < e.length) : ∃ f ∈ memmap, f.top = highestIndexedAddr memmap := by
  have aux : ∀ (es : List MemmapEntry) (m : ℕ), es.foldl (fun h e =>
      if archMemmapIsReclaimable e ∨ archMemmapIsUsable e then max h e.top else h) m = m ∨
      ∃ f ∈ es, f.top = es.foldl (fun h e =>
        if archMemmapIsReclaimable e ∨ archMemmapIsUsable e then max h e.top else h) m := by
    intro es
    induction es with
    | nil => exact fun m => Or.inl rfl
    | cons e es ih =>
      intro m
      rw [foldl_cons]
      rcases ih (if archMemmapIsReclaimable e ∨ archMemmapIsUsable e then max m e.top else m) with
        h | ⟨f, hf, h⟩
      · rw [h]
        split
        · rcases max_choice m e.top with hm | hm
          · exact Or.inl hm
          · exact Or.inr ⟨e, by simp, hm.symm⟩
        · exact Or.inl rfl
      · exact Or.inr ⟨f, by simp [hf], h⟩
  refine (aux memmap 0).resolve_left fun h => ?_
  have := top_le_highestIndexedAddr he (Or.inr hu)
  rw [highestIndexedAddr, h, top] at this
  omega

theorem WholeMap.unique (h : WholeMap memmap) {f : MemmapEntry} (he : e ∈ memmap) (hf : f ∈ memmap)
    (hpe : e.span.Covers p) (hpf : f.span.Covers p) : e = f := by
  by_contra hne
  have : Std.Symm fun e f : MemmapEntry => e.top ≤ f.base ∨ f.top ≤ e.base := ⟨fun _ _ => Or.symm⟩
  have hd := h.disjoint.forall he hf hne
  simp only [top, MemmapEntry.span, Span.Covers, Span.stop, archPageSize] at *
  omega

theorem cover_usable_pos : 0 < cover (usableSpans memmap) p ↔
    ∃ e ∈ memmap, archMemmapIsUsable e ∧ e.span.Covers p := by
  rw [cover_pos]
  simp [usableSpans, and_assoc]

def Marked (memmap : List MemmapEntry) (e₀ : MemmapEntry) (p : ℕ) : Prop :=
  (arraySpan (highestIndexedAddr memmap) e₀).Covers p ∨
    ∃ e ∈ memmap, ReservedBelow (highestIndexedAddr memmap) e ∧ e.span.Covers p

def HoldsArray (memmap : List MemmapEntry) (e₀ : MemmapEntry) : Prop :=
  memmap.find? (fitsPageMeta (highestIndexedAddr memmap)) = some e₀

/-- Initialisation succeeds and says which pages it marked. -/
theorem comMmPmmInit_total (h : WholeMap memmap) (mem : ℕ → ℕ) :
    ∃ s e₀, comMmPmmInit mem memmap = some s ∧ HoldsArray memmap e₀ ∧
      MetaState (highestIndexedAddr memmap) (highestAddr memmap) (Marked memmap e₀) s.pageMeta := by
  obtain ⟨f, hf, hfi⟩ := h.fits
  obtain ⟨e₀, he₀⟩ := Option.isSome_iff_exists.mp (List.find?_isSome.mpr ⟨f, hf, hfi⟩)
  have hfm : (sized mem memmap).frames = highestAddr memmap / archPageSize := by
    rw [sized, sizing_highestAddr]
  have hem : Threads (sized mem memmap).freeList [] := sizing_freeList.1
  obtain ⟨s₁, hs₁, -, hpc⟩ := build_total h.usableMap
    (fun e he hu => top_le_highestIndexedAddr he (Or.inr hu)) highestIndexedAddr_le hem
    (by rw [hfm]; exact bootBlocks_layout h.usableMap) (fun _ => rfl)
  obtain ⟨a, ha, hm⟩ := (hpc rfl e₀ he₀).reserve highestIndexedAddr_le h.aligned h.nonempty
  refine ⟨{ s₁ with pageMeta := a, stats := { s₁.stats with free := s₁.stats.usable } }, e₀, ?_,
    he₀, hm⟩
  simp only [comMmPmmInit, sizing_highestIndexedAddr, sizing_highestAddr, hs₁, ha,
    Option.bind_eq_bind, Option.bind_some]

/-- What the metadata should say: free pages of the map are free, its other indexed pages are
reserved, and no unusable page makes `hold` or `is_shared` fail. -/
structure MetaExact (memmap : List MemmapEntry) (s : State) : Prop where
  free : ∀ e ∈ memmap, ∀ p, e.span.Covers p → p < s.pageMeta.reservedStart →
    (∃ b ∈ freeBlocks s, b.Covers p) →
    (s.pageMeta.entries p).state = .free ∧ (s.pageMeta.entries p).numRef = 0
  reserved : ∀ e ∈ memmap, ∀ p, e.span.Covers p → p < s.pageMeta.reservedStart →
    ¬ (∃ b ∈ freeBlocks s, b.Covers p) →
    (s.pageMeta.entries p).state = .reserved ∧ (s.pageMeta.entries p).numRef = 1
  holdable : ∀ e ∈ memmap, ¬ archMemmapIsUsable e → ∀ p, e.span.Covers p →
    (comMmPmmHold s.pageMeta (p * archPageSize)).isSome ∧
      (comMmPmmIsShared s.pageMeta (p * archPageSize)).isSome

section Exact

variable (h : WholeMap memmap) (hfd : HoldsArray memmap e₀)
include h

theorem WholeMap.top_lt_or_eq (he : e ∈ memmap) (hp : e.span.Covers p)
    (hlt : p < highestIndexedAddr memmap / archPageSize) :
    e.top < highestIndexedAddr memmap ∨ e.top = highestIndexedAddr memmap := by
  obtain ⟨f₀, hf₀, hfi⟩ := h.fits
  obtain ⟨f, hf, hft⟩ := exists_top_eq_highestIndexedAddr hf₀ (fitsPageMeta_iff.mp hfi).1
    (h.nonempty f₀ hf₀)
  by_cases hef : e = f
  · exact Or.inr (hef ▸ hft)
  · have : Std.Symm fun e f : MemmapEntry => e.top ≤ f.base ∨ f.top ≤ e.base :=
      ⟨fun _ _ => Or.symm⟩
    have hd := h.disjoint.forall he hf hef
    simp only [top, MemmapEntry.span, Span.Covers, Span.stop, archPageSize] at *
    omega

include hfd

theorem bootBlocks_cover_add : cover (bootBlocks memmap) p +
    (arraySpan (highestIndexedAddr memmap) e₀).hits p = cover (usableSpans memmap) p :=
  bootBlocksFrom_cover (fun e he _ => h.aligned e he) hfd

theorem HoldsArray.usable : e₀ ∈ memmap ∧ archMemmapIsUsable e₀ ∧
    ((arraySpan (highestIndexedAddr memmap) e₀).Covers p → e₀.span.Covers p) := by
  have hme := mem_of_find?_eq_some hfd
  obtain ⟨hu, hge⟩ := fitsPageMeta_iff.mp (List.find?_some hfd)
  have := h.aligned e₀ hme
  refine ⟨hme, hu, fun hp => ?_⟩
  simp only [arraySpan, MemmapEntry.span, Span.Covers, Span.stop, pageMetaAlignedSize,
    archPageSize] at *
  omega

theorem not_free_of_unusable (he : e ∈ memmap) (hu : ¬ archMemmapIsUsable e)
    (hp : e.span.Covers p) : cover (bootBlocks memmap) p = 0 := by
  by_contra hne
  have had := bootBlocks_cover_add h hfd (p := p)
  obtain ⟨f, hf, huf, hfp⟩ := cover_usable_pos.mp
    ((Nat.pos_of_ne_zero hne).trans_le (had ▸ Nat.le_add_right _ _))
  exact hu (h.unique he hf hp hfp ▸ huf)

theorem not_marked_of_free (hp : 0 < cover (bootBlocks memmap) p) : ¬ Marked memmap e₀ p := by
  have had := bootBlocks_cover_add h hfd (p := p)
  rintro (harr | ⟨e, he, hre, hcv⟩)
  · have := hits_pos.mpr harr
    have := h.usableMap.layout.once p
    omega
  · obtain ⟨f, hf, hu, hfp⟩ := cover_usable_pos.mp (hp.trans_le (had ▸ Nat.le_add_right _ _))
    exact hre.1 (h.unique he hf hcv hfp ▸ hu)

theorem marked_of_not_free (htp : ∀ e ∈ memmap, ¬ archMemmapIsUsable e →
      e.top ≠ highestIndexedAddr memmap) (he : e ∈ memmap) (hp : e.span.Covers p)
    (hlt : p < highestIndexedAddr memmap / archPageSize)
    (hfr : cover (bootBlocks memmap) p = 0) : Marked memmap e₀ p := by
  by_cases hu : archMemmapIsUsable e
  · refine Or.inl (hits_pos.mp ?_)
    have := cover_usable_pos.mpr ⟨e, he, hu, hp⟩
    have := bootBlocks_cover_add h hfd (p := p)
    omega
  · refine Or.inr ⟨e, he, ⟨hu, ?_⟩, hp⟩
    exact (h.top_lt_or_eq he hp hlt).resolve_right (htp e he hu)

theorem not_marked_of_top (he : e ∈ memmap) (hu : ¬ archMemmapIsUsable e)
    (htp : e.top = highestIndexedAddr memmap) (hp : e.span.Covers p) : ¬ Marked memmap e₀ p := by
  rintro (harr | ⟨f, hf, hre, hcv⟩)
  · obtain ⟨hme, hu₀, hcv⟩ := hfd.usable h
    exact hu (h.unique he hme hp (hcv harr) ▸ hu₀)
  · exact hre.2.ne (h.unique he hf hp hcv ▸ htp)

end Exact

theorem hold_isShared_isSome (het : p < a.extendedLen)
    (hne : (a.read (if p < a.reservedStart then .entry p else .fake)).state ≠ .free) :
    (comMmPmmHold a (p * archPageSize)).isSome ∧ (comMmPmmIsShared a (p * archPageSize)).isSome := by
  have hid : p * archPageSize / archPageSize = p := Nat.mul_div_cancel _ (by decide)
  have hgt : pageMetaGet a (p * archPageSize) =
      some (if p < a.reservedStart then .entry p else .fake) := by
    simp only [pageMetaGet, hid, if_pos het]
  simp [comMmPmmHold, comMmPmmIsShared, hgt, hne]

/-- Initialisation succeeds, and the metadata is exact if and only if no unusable entry ends at
the highest indexed address. -/
theorem init_metaExact_iff (h : WholeMap memmap) (mem : ℕ → ℕ) :
    ∃ s, comMmPmmInit mem memmap = some s ∧ (MetaExact memmap s ↔
        ∀ e ∈ memmap, ¬ archMemmapIsUsable e → e.top ≠ highestIndexedAddr memmap) := by
  obtain ⟨s, e₀, hs, hfd, hm⟩ := comMmPmmInit_total h mem
  have hbc : freeBlocks s = _ := (boot_invariant h.usableMap hs).freeBlocks_eq
  have hfr : ∀ p, (∃ b ∈ freeBlocks s, b.Covers p) ↔ 0 < cover (bootBlocks memmap) p := by
    intro p
    rw [← cover_pos, hbc, addAll_cover, cover_nil, zero_add]
  refine ⟨s, hs, fun hx e he hu htp => ?_, fun htp => ⟨?_, ?_, ?_⟩⟩
  · -- The last page of the skipped entry is left as zero memory, which reads as free.
    have hps := h.nonempty e he
    obtain ⟨hb, hl⟩ := h.aligned e he
    have hp : e.span.Covers (e.top / archPageSize - 1) := by
      simp only [top, MemmapEntry.span, Span.Covers, Span.stop, archPageSize] at *
      omega
    have hnt := not_marked_of_top h hfd he hu htp hp
    have hun : ¬ ∃ b ∈ freeBlocks s, b.Covers (e.top / archPageSize - 1) := by
      rw [hfr, not_free_of_unusable h hfd he hu hp]
      exact lt_irrefl 0
    have hlt : e.top / archPageSize - 1 < s.pageMeta.reservedStart := by
      rw [hm.reservedStart, ← htp]
      simp only [top, archPageSize] at *
      omega
    have hre := (hx.reserved e he _ hp hlt hun).1
    rw [hm.unmarked _ hnt] at hre
    cases hre
  · intro e he p hp hlt hcv
    rw [hm.unmarked p (not_marked_of_free h hfd ((hfr p).mp hcv))]
    exact ⟨rfl, rfl⟩
  · intro e he p hp hlt hcv
    rw [hm.reservedStart] at hlt
    have hz : cover (bootBlocks memmap) p = 0 := by
      rw [hfr] at hcv
      omega
    rw [hm.marked p (marked_of_not_free h hfd htp he hp hlt hz)]
    exact ⟨rfl, rfl⟩
  · intro e he hu p hp
    have het : p < s.pageMeta.extendedLen := by
      have := top_le_highestAddr he
      rw [hm.extendedLen]
      simp only [top, MemmapEntry.span, Span.Covers, Span.stop, archPageSize] at *
      omega
    refine hold_isShared_isSome het ?_
    split
    · rename_i hlt
      rw [hm.reservedStart] at hlt
      have hmr := marked_of_not_free h hfd htp he hp hlt
        (not_free_of_unusable h hfd he hu hp)
      rw [PageMetaArray.read, hm.marked p hmr]
      decide
    · rw [PageMetaArray.read, hm.fakeEntry]
      decide

def usableTopMap : List MemmapEntry :=
  [⟨0x1000, 0x2000, .kernelAndModules⟩, ⟨0x4000, 0x4000, .usable⟩, ⟨0x10000, 0x1000, .reserved⟩]

theorem init_metaExact_usableTop :
    ∃ s, comMmPmmInit (fun _ => 0) usableTopMap = some s ∧ MetaExact usableTopMap s := by
  have hmp : WholeMap usableTopMap := ⟨by decide, by decide, by decide, by decide⟩
  obtain ⟨s, hs, hif⟩ := init_metaExact_iff hmp fun _ => 0
  exact ⟨s, hs, hif.mpr (by decide)⟩

def reclaimableTopMap : List MemmapEntry :=
  [⟨0x1000, 0x2000, .usable⟩, ⟨0x4000, 0x1000, .bootloaderReclaimable⟩]

def reclaimableTopState : Option State := comMmPmmInit (fun _ => 0) reclaimableTopMap

theorem reclaimableTopState_isSome : reclaimableTopState.isSome := by decide +kernel

/-- Its page is left free, so `hold` panics on it. -/
theorem reclaimable_top_left_free :
    ∃ s, WholeMap reclaimableTopMap ∧ comMmPmmInit (fun _ => 0) reclaimableTopMap = some s ∧
      (s.pageMeta.entries 4).state = .free ∧ comMmPmmHold s.pageMeta 0x4000 = none ∧
      ¬ MetaExact reclaimableTopMap s := by
  have hhl : ((comMmPmmHold (reclaimableTopState.get reclaimableTopState_isSome).pageMeta
      0x4000).isNone) := by decide +kernel
  refine ⟨reclaimableTopState.get reclaimableTopState_isSome, ⟨by decide, by decide, by decide, by
    decide⟩, (Option.some_get reclaimableTopState_isSome).symm, by decide +kernel,
    Option.isNone_iff_eq_none.mp hhl, fun hx => ?_⟩
  have hsm := (hx.holdable ⟨0x4000, 0x1000, .bootloaderReclaimable⟩ (by decide) (by decide) 4
    (by decide)).1
  rw [Option.isNone_iff_eq_none] at hhl
  simp [archPageSize, hhl] at hsm

end PhysicalMemory
