import SalernosKernel.PhysicalMemoryBoot

/-! # Runs of the page allocator

The allocator's callers, one call at a time: the free-list lock makes a call a step. A run
also stores to pages its callers hold. It ends at the first failed assertion. -/
namespace PhysicalMemory

open TailQueue (Queue Represents)
open Spans BlockList Option

/-- Allocator, page ranges returned so far, page ranges unreserved so far. -/
structure System where
  pmm : State
  returned : List Span
  unreserved : List Span

inductive Event where
  | alloc
  | allocMany (pages : ℕ)
  | allocMax (pages : ℕ)
  | unreserveMany (base pages : ℕ)
  | store (addr value : ℕ)
  deriving DecidableEq

def System.give (s : System) (phys size : ℕ) (pmm : State) : System :=
  { s with pmm := pmm, returned := ⟨phys / archPageSize, size⟩ :: s.returned }

def next (s : System) : Event → Option System
  | .alloc => (comMmPmmAlloc s.pmm).map fun (phys, pmm) => s.give phys 1 pmm
  | .allocMany n => (comMmPmmAllocMany s.pmm n).map fun (phys, pmm) => s.give phys n pmm
  | .allocMax n =>
    (comMmPmmAllocMax s.pmm n).map fun (phys, out, pmm) => s.give phys (out.getD 1) pmm
  | .unreserveMany base n =>
    (comMmPmmUnreserveMany s.pmm base n).map fun pmm =>
      { s with pmm := pmm, unreserved := ⟨base / archPageSize, n⟩ :: s.unreserved }
  | .store a v => some { s with pmm := { s.pmm with freeList := s.pmm.freeList.store a v } }

def HeldAt (returned : List Span) (a : ℕ) : Prop :=
  ∃ r ∈ returned, archPhysToHhdm (r.start * archPageSize) ≤ a ∧
    a < archPhysToHhdm (r.stop * archPageSize)
  deriving Decidable

/-- What callers keep to: no empty request, only reserved memory below the end of the metadata
array is unreserved, and only once, and stores go to held pages. -/
def Enabled (memmap : List MemmapEntry) (s : System) : Event → Prop
  | .alloc => True
  | .allocMany n => 0 < n
  | .allocMax n => 0 < n
  | .unreserveMany base n => 0 < n ∧ archPageSize ∣ base ∧
      base / archPageSize + n ≤ s.pmm.pageMeta.reservedStart ∧
      ∀ u ∈ usableSpans memmap ++ s.unreserved, (Span.mk (base / archPageSize) n).Disjoint u
  | .store a _ => HeldAt s.returned a

instance (memmap : List MemmapEntry) (s : System) (e : Event) : Decidable (Enabled memmap s e) := by
  cases e <;> unfold Enabled <;> infer_instance

def freeBlocks (s : State) : List Span :=
  (TailQueue.elems s.freeList.mem s.frames s.freeList.first).map fun x =>
    ⟨archHhdmToPhys x / archPageSize, entryPages s.freeList x⟩

variable {memmap : List MemmapEntry} {s s' : State} {bs cs : List Span} {b got : Span}
  {n p a phys : ℕ}

theorem frameAddr_phys (p : ℕ) : archHhdmToPhys (frameAddr p) = p * archPageSize := by
  rw [archHhdmToPhys, frameAddr, archPhysToHhdm, Nat.add_sub_cancel_left]

theorem Threads.freeBlocks_eq (h : Threads s.freeList bs) (hln : bs.length ≤ s.frames) :
    freeBlocks s = bs := by
  have hel : TailQueue.elems s.freeList.mem s.frames s.freeList.first = _ :=
    h.links.elems_eq (by simpa [starts] using hln)
  unfold freeBlocks
  rw [hel, starts, List.map_map, List.map_map]
  refine (List.map_congr_left fun b hb => ?_).trans (List.map_id bs)
  have hpg := h.pages b hb
  simp only [Function.comp_apply, frameAddr_phys, hpg, archPageSize]
  simp

structure Delivery (s s' : State) (bs cs : List Span) (got : Span) : Prop where
  threads : Threads s'.freeList cs
  cleared : ∀ a, InHeader got.start a → s'.freeList.mem a = 0
  frame : ∀ a, (∀ p ∈ got.start :: starts bs, ¬ InHeader p a) →
    s'.freeList.mem a = s.freeList.mem a
  frames : s'.frames = s.frames
  shape : SameShape s.pageMeta s'.pageMeta

theorem Delivery.of_pop {q : Queue} (hr : Rethreads s.freeList q (starts bs) cs)
    (hfr : got.start ∉ starts cs) (hq : s'.freeList = clearEntry q (frameAddr got.start))
    (hfm : s'.frames = s.frames) (hsh : SameShape s.pageMeta s'.pageMeta) :
    Delivery s s' bs cs got := by
  have hme : ∀ a, ¬ InHeader got.start a → s'.freeList.mem a = q.mem a := by
    intro a ha
    rw [hq]
    exact if_neg ha
  refine ⟨?_, fun a ha => ?_, fun a ha => ?_, hfm, hsh⟩
  · rw [hq]
    refine hr.threads.frame (m := (clearEntry q (frameAddr got.start)).mem) fun p hp i hi => ?_
    have hne : p ≠ got.start := fun he => hfr (he ▸ hp)
    exact if_neg (not_inHeader_of_ne hne (by omega))
  · rw [hq]
    exact if_pos ha
  · rw [hme a (ha _ (by simp)), hr.frame a fun p hp => ha p (by simp [hp])]

theorem popFor_layout {bound : ℕ} (hl : Layout bound bs) (hn : 0 < n)
    (h : popFor n bs = some (got, cs)) : Layout bound (got :: cs) := by
  obtain ⟨hgt, hcs⟩ := hl.positive.popFor hn h
  refine hl.of_cover_le (Positive.cons.mpr ⟨hgt, hcs⟩) fun p => ?_
  rw [popFor_cover hl.positive h, cover_cons]

theorem comMmPmmAlloc_refines (ht : Threads s.freeList bs) (hl : Layout s.frames bs)
    (h : comMmPmmAlloc s = some (phys, s')) :
    ∃ got cs, popFor 1 bs = some (got, cs) ∧ phys = got.start * archPageSize ∧ got.size = 1 ∧
      Delivery s s' bs cs got := by
  simp only [comMmPmmAlloc, bind_eq_bind, bind_eq_some_iff] at h
  obtain ⟨⟨virt, q⟩, hpp, ref, -, h⟩ := h
  rcases freelistPopRearNolock_refines ht hl.positive with ⟨-, hno⟩ | ⟨got, cs, q', hb, hq, hr⟩
  · simp [hno] at hpp
  rw [hq] at hpp
  obtain ⟨rfl, rfl⟩ : frameAddr got.start = virt ∧ q' = q := by simpa using hpp
  have hb' : popFor 1 bs = some (got, cs) := by simpa [popFor] using hb
  have hly := popFor_layout hl one_pos hb'
  split at h
  · simp only [some.injEq, Prod.mk.injEq] at h
    obtain ⟨rfl, rfl⟩ := h
    exact ⟨got, cs, hb', frameAddr_phys _, (hl.positive.popRear hb).1,
      Delivery.of_pop hr hly.start_notMem rfl rfl (fill_sameShape _ _ _ _)⟩
  · simp at h

theorem finishAllocation_eq {q : Queue} {virt pages : ℕ}
    (h : finishAllocation s q virt pages = some (phys, s')) :
    phys = archHhdmToPhys virt ∧ s'.freeList = clearEntry q virt ∧ s'.frames = s.frames ∧
      SameShape s.pageMeta s'.pageMeta := by
  simp only [finishAllocation, bind_eq_bind, bind_eq_some_iff] at h
  obtain ⟨a, ha, h⟩ := h
  simp only [some.injEq, Prod.mk.injEq] at h
  obtain ⟨rfl, rfl⟩ := h
  exact ⟨rfl, rfl, rfl, pageMetaSet_sameShape ha⟩

theorem comMmPmmAllocMax_refines {out : Option ℕ} (ht : Threads s.freeList bs)
    (hl : Layout s.frames bs) (hn : 0 < n) (hf : n ≠ 1 → FrontIntact n bs)
    (h : comMmPmmAllocMax s n = some (phys, out, s')) :
    ∃ got cs, popFor n bs = some (got, cs) ∧ phys = got.start * archPageSize ∧
      got.size = out.getD 1 ∧ Delivery s s' bs cs got := by
  unfold comMmPmmAllocMax at h
  by_cases h1 : n = 1
  · subst h1
    obtain ⟨⟨phys', s₁⟩, hal, heq⟩ := map_eq_some_iff.mp h
    obtain ⟨rfl, rfl, rfl⟩ := heq
    exact comMmPmmAlloc_refines ht hl hal
  · rw [if_neg h1] at h
    simp only [bind_eq_bind, bind_eq_some_iff] at h
    obtain ⟨⟨size, virt, q⟩, hpp, ⟨phys', s₁⟩, hfn, h⟩ := h
    obtain ⟨rfl, rfl, rfl⟩ := h
    rcases freelistPopFrontNolock_refines ht (hf h1) hl.length_le with
      ⟨-, hno⟩ | ⟨got, cs, q', hb, hq, hr⟩
    · simp [hno] at hpp
    rw [hq] at hpp
    obtain ⟨rfl, rfl, rfl⟩ := hpp
    have hb' : popFor n bs = some (got, cs) := by simpa [popFor, h1] using hb
    obtain ⟨hph, hfe, hfm, hsh⟩ := finishAllocation_eq hfn
    exact ⟨got, cs, hb', hph.trans (frameAddr_phys _), rfl,
      Delivery.of_pop hr (popFor_layout hl hn hb').start_notMem hfe hfm hsh⟩

theorem comMmPmmAllocMany_eq (h : comMmPmmAllocMany s n = some (phys, s')) :
    ∃ out, comMmPmmAllocMax s n = some (phys, out, s') ∧ out.getD 1 = n := by
  by_cases h1 : n = 1
  · rw [comMmPmmAllocMany, if_pos h1] at h
    refine ⟨none, ?_, h1.symm⟩
    rw [comMmPmmAllocMax, if_pos h1, h, map_some]
  · rw [comMmPmmAllocMany, if_neg h1] at h
    simp only [bind_eq_bind, bind_eq_some_iff] at h
    obtain ⟨⟨size, virt, q⟩, hpp, h⟩ := h
    by_cases hsz : size = n
    · subst hsz
      rw [if_pos rfl] at h
      refine ⟨some size, ?_, rfl⟩
      rw [comMmPmmAllocMax, if_neg h1]
      simp only [bind_eq_bind, bind_eq_some_iff]
      exact ⟨(size, virt, q), hpp, (phys, s'), h, rfl⟩
    · simp [if_neg hsz] at h

structure Release (s s' : State) (bs : List Span) (b : Span) : Prop where
  threads : Threads s'.freeList (addOrdered b bs)
  zeroed : ∀ p, b.Covers p → ∀ a, OnFrame p a → (∀ r ∈ b.start :: starts bs, ¬ InHeader r a) →
    s'.freeList.mem a = 0
  frame : ∀ p, ¬ b.Covers p → ∀ a, OnFrame p a → (∀ r ∈ b.start :: starts bs, ¬ InHeader r a) →
    s'.freeList.mem a = s.freeList.mem a
  frames : s'.frames = s.frames
  shape : SameShape s.pageMeta s'.pageMeta

theorem onFrame_in_span (ha : OnFrame p a) : frameAddr b.start ≤ a ∧
    a < frameAddr b.start + b.size * archPageSize ↔ b.Covers p := by
  unfold OnFrame at ha
  unfold Span.Covers Span.stop
  rw [frameAddr_eq] at *
  simp only [archPageSize] at *
  omega

theorem comMmPmmUnreserveMany_refines {base : ℕ} (ht : Threads s.freeList bs)
    (hl : Layout s.frames (⟨base / archPageSize, n⟩ :: bs)) (hbs : archPageSize ∣ base)
    (h : comMmPmmUnreserveMany s base n = some s') :
    Release s s' bs ⟨base / archPageSize, n⟩ := by
  simp only [comMmPmmUnreserveMany, bind_eq_bind, bind_eq_some_iff, archPhysToHhdm_eq hbs] at h
  obtain ⟨ref, -, q, had, h⟩ := h
  cases h
  set b : Span := ⟨base / archPageSize, n⟩ with hb
  set z := kmemsetZero s.freeList (frameAddr b.start) (n * archPageSize) with hz
  have hfr : b.start ∉ starts bs := hl.start_notMem
  have hzm : ∀ p a, OnFrame p a → z.mem a = if b.Covers p then 0 else s.freeList.mem a :=
    fun p a ha => if_congr (onFrame_in_span ha) rfl rfl
  -- No header on the list lies in the zeroed range.
  have hzt : Threads z bs := by
    refine ht.frame (m := z.mem) fun p hp i hi => ?_
    have hof : ¬ b.Covers p := by
      obtain ⟨c, hc, rfl⟩ := List.mem_map.mp hp
      intro hcv
      have hc₁ : 0 < c.hits c.start :=
        hits_pos.mpr ⟨le_rfl, Nat.lt_add_of_pos_right (hl.positive c (List.mem_cons_of_mem _ hc))⟩
      have := hl.once c.start
      have := hits_le_cover (p := c.start) hc
      have := hits_pos.mpr hcv
      rw [cover_cons] at *
      omega
    have hon : OnFrame p (frameAddr p + i) := by
      unfold OnFrame archPageSize
      omega
    rw [hzm p _ hon, if_neg hof]
  have hln : bs.length ≤ s.frames := Nat.le_of_succ_le hl.length_le
  obtain ⟨q', hq', hr⟩ := freelistAddOrderedNolock_refines (hzt.setPages_fresh hfr n) hfr
    (entryPages_setPages _ _ _) hln
  obtain rfl : q' = q := some.inj (hq'.symm.trans had)
  have hme : ∀ a, (∀ r ∈ b.start :: starts bs, ¬ InHeader r a) → q'.mem a = z.mem a :=
    fun a ha => (hr.frame a ha).trans (setPages_frame (ha _ (by simp)) n)
  refine ⟨hr.threads, fun p hp a ha hh => ?_, fun p hp a ha hh => ?_, rfl, fill_sameShape _ _ _ _⟩
  · exact (hme a hh).trans ((hzm p a ha).trans (if_pos hp))
  · exact (hme a hh).trans ((hzm p a ha).trans (if_neg hp))

structure Invariant (memmap : List MemmapEntry) (s : System) (bs : List Span) : Prop where
  threads : Threads s.pmm.freeList bs
  layout : Layout s.pmm.frames (bs ++ s.returned)
  conserved : ∀ p, cover bs p + cover s.returned p =
    cover (bootBlocks memmap) p + cover s.unreserved p
  indexed : s.pmm.pageMeta.reservedStart ≤ s.pmm.frames

def Event.requests : Event → Option ℕ
  | .alloc => some 1
  | .allocMany n => some n
  | .allocMax n => some n
  | _ => none

def FrontKept (bs : List Span) (e : Event) : Prop :=
  ∀ n ∈ e.requests, n ≠ 1 → FrontIntact n bs

theorem Invariant.freeBlocks_eq {s : System} (h : Invariant memmap s bs) :
    freeBlocks s.pmm = bs := h.threads.freeBlocks_eq h.layout.left.length_le

theorem boot_invariant {mem : ℕ → ℕ} (hmp : UsableMap memmap)
    (h : comMmPmmInit mem memmap = some s) :
    Invariant memmap ⟨s, [], []⟩ (addAll [] (bootBlocks memmap)) := by
  have hb := comMmPmmInit_booted hmp h
  have hl := bootBlocks_layout hmp
  refine ⟨hb.threads, ?_, fun p => by simp [addAll_cover], hb.indexed⟩
  rw [List.append_nil, hb.frames]
  exact hl.of_cover_le (Positive.nil.addAll hl.positive) fun p => by simp [addAll_cover]

variable {t t' : System} {e : Event}

theorem give_returned {pmm : State} (h : n = got.size) :
    (t.give (got.start * archPageSize) n pmm).returned = got :: t.returned := by
  simp [System.give, archPageSize, h]

theorem unreserved_layout (hmp : UsableMap memmap) (hi : Invariant memmap t bs)
    (hb : 0 < b.size) (hbd : b.start + b.size ≤ t.pmm.pageMeta.reservedStart)
    (hds : ∀ u ∈ usableSpans memmap ++ t.unreserved, b.Disjoint u) :
    Layout t.pmm.frames (b :: (bs ++ t.returned)) := by
  have hfe : ∀ p, b.Covers p → cover (bs ++ t.returned) p = 0 := by
    intro p hp
    have hzr : cover (usableSpans memmap ++ t.unreserved) p = 0 := by
      by_contra hne
      obtain ⟨u, hu, hup⟩ := cover_pos.mp (pos_of_ne_zero hne)
      have := hds u hu
      simp only [Span.Disjoint, Span.Covers] at *
      omega
    have hbt : cover (bootBlocks memmap) p ≤ cover (usableSpans memmap) p :=
      bootBlocksFrom_cover_le hmp
    have := hi.conserved p
    rw [cover_append] at *
    omega
  refine ⟨Positive.cons.mpr ⟨hb, hi.layout.positive⟩, fun p => ?_, fun p hp => ?_⟩
  · rw [cover_cons]
    by_cases hcv : b.Covers p
    · rw [hfe p hcv]
      exact hits_le_one
    · rw [show b.hits p = 0 from if_neg hcv, zero_add]
      exact hi.layout.once p
  · by_cases hcv : b.Covers p
    · exact (hcv.2.trans_le hbd).trans_le hi.indexed
    · rw [cover_cons, show b.hits p = 0 from if_neg hcv, zero_add] at hp
      exact hi.layout.inside p hp

theorem next_cases (hmp : UsableMap memmap) (hi : Invariant memmap t bs)
    (he : Enabled memmap t e) (hf : FrontKept bs e) (h : next t e = some t') :
    (∃ n got cs, e.requests = some n ∧ 0 < n ∧ popFor n bs = some (got, cs) ∧ Delivery t.pmm t'.pmm
      bs cs got ∧ t'.returned = got :: t.returned ∧ t'.unreserved = t.unreserved) ∨
    (∃ base n, e = .unreserveMany base n ∧ Release t.pmm t'.pmm bs ⟨base / archPageSize, n⟩ ∧
      Layout t.pmm.frames (⟨base / archPageSize, n⟩ :: (bs ++ t.returned)) ∧
      t'.returned = t.returned ∧ t'.unreserved = ⟨base / archPageSize, n⟩ :: t.unreserved) ∨
    (∃ a v, e = .store a v ∧ HeldAt t.returned a ∧
      t' = { t with pmm := { t.pmm with freeList := t.pmm.freeList.store a v } }) := by
  have hl := hi.layout.left
  cases e with
  | alloc =>
    obtain ⟨⟨phys, pmm⟩, hal, rfl⟩ := map_eq_some_iff.mp h
    obtain ⟨got, cs, hp, rfl, hsz, hd⟩ := comMmPmmAlloc_refines hi.threads hl hal
    exact Or.inl ⟨1, got, cs, rfl, one_pos, hp, hd, give_returned hsz.symm, rfl⟩
  | allocMany n =>
    obtain ⟨⟨phys, pmm⟩, hal, rfl⟩ := map_eq_some_iff.mp h
    obtain ⟨out, hmx, hou⟩ := comMmPmmAllocMany_eq hal
    obtain ⟨got, cs, hp, rfl, hsz, hd⟩ :=
      comMmPmmAllocMax_refines hi.threads hl he (hf n rfl) hmx
    exact Or.inl ⟨n, got, cs, rfl, he, hp, hd, give_returned (hou.symm.trans hsz.symm), rfl⟩
  | allocMax n =>
    obtain ⟨⟨phys, out, pmm⟩, hal, rfl⟩ := map_eq_some_iff.mp h
    obtain ⟨got, cs, hp, rfl, hsz, hd⟩ :=
      comMmPmmAllocMax_refines hi.threads hl he (hf n rfl) hal
    exact Or.inl ⟨n, got, cs, rfl, he, hp, hd, give_returned hsz.symm, rfl⟩
  | unreserveMany base n =>
    obtain ⟨pmm, hrl, rfl⟩ := map_eq_some_iff.mp h
    obtain ⟨hn, hbs, hbd, hds⟩ := he
    have hly := unreserved_layout hmp hi hn hbd hds
    have hly' : Layout t.pmm.frames (⟨base / archPageSize, n⟩ :: bs) := Layout.left hly
    exact Or.inr (Or.inl ⟨base, n, rfl, comMmPmmUnreserveMany_refines hi.threads hly' hbs hrl,
      hly, rfl, rfl⟩)
  | store a v =>
    exact Or.inr (Or.inr ⟨a, v, rfl, he, (some.inj h).symm⟩)

def nextBlocks (bs : List Span) : Event → Option (List Span)
  | .alloc => (popFor 1 bs).map Prod.snd
  | .allocMany n => (popFor n bs).map Prod.snd
  | .allocMax n => (popFor n bs).map Prod.snd
  | .unreserveMany base n => some (addOrdered ⟨base / archPageSize, n⟩ bs)
  | .store _ _ => some bs

theorem nextBlocks_of_requests (h : e.requests = some n) :
    nextBlocks bs e = (popFor n bs).map Prod.snd := by
  cases e <;> simp_all [Event.requests, nextBlocks]

theorem OnFrame.unique {r : ℕ} (h : OnFrame p a) (h' : OnFrame r a) : p = r := by
  simp only [OnFrame, frameAddr_eq, archPageSize] at *
  omega

theorem InHeader.onFrame (h : InHeader p a) : OnFrame p a := by
  simp only [InHeader, OnFrame, archPageSize] at *
  omega

theorem HeldAt.onFrame {returned : List Span} (h : HeldAt returned a) :
    ∃ p, OnFrame p a ∧ 0 < cover returned p := by
  obtain ⟨r, hr, hlo, hhi⟩ := h
  refine ⟨archHhdmToPhys a / archPageSize, ?_, cover_pos.mpr ⟨r, hr, ?_⟩⟩ <;>
  · simp only [OnFrame, frameAddr_eq, Span.Covers, Span.stop, archHhdmToPhys, archPhysToHhdm,
      hhdmOffset, archPageSize] at *
    omega

theorem Invariant.not_held (hi : Invariant memmap t bs) (hp : 0 < cover bs p)
    (ha : OnFrame p a) : ¬ HeldAt t.returned a := by
  intro hh
  obtain ⟨r, hr, hcv⟩ := hh.onFrame
  obtain rfl := ha.unique hr
  have := hi.layout.once p
  rw [cover_append] at this
  omega

theorem cover_start_pos (hps : Positive bs) (hp : p ∈ starts bs) : 0 < cover bs p := by
  obtain ⟨b, hb, rfl⟩ := List.mem_map.mp hp
  exact cover_pos.mpr ⟨b, hb, le_rfl, Nat.lt_add_of_pos_right (hps b hb)⟩

theorem Invariant.store {v : ℕ} (hi : Invariant memmap t bs) (hh : HeldAt t.returned a) :
    Threads (t.pmm.freeList.store a v) bs := by
  refine hi.threads.frame (m := (t.pmm.freeList.store a v).mem) fun p hp i hi' => ?_
  have hon : OnFrame p (frameAddr p + i) := by
    unfold OnFrame archPageSize
    omega
  have hne : frameAddr p + i ≠ a := by
    rintro rfl
    exact hi.not_held (cover_start_pos hi.layout.left.positive hp) hon hh
  exact Function.update_of_ne hne _ _

theorem next_invariant (hmp : UsableMap memmap) (hi : Invariant memmap t bs)
    (he : Enabled memmap t e) (hf : FrontKept bs e) (h : next t e = some t') :
    ∃ cs, nextBlocks bs e = some cs ∧ Invariant memmap t' cs := by
  have hps := hi.layout.left.positive
  have hrt := (Positive.append.mp hi.layout.positive).2
  rcases next_cases hmp hi he hf h with
    ⟨n, got, cs, hrq, hn, hpp, hd, hr, hu⟩ | ⟨base, n, rfl, hrl, hly, hr, hu⟩ |
    ⟨a, v, rfl, hh, rfl⟩
  · refine ⟨cs, by rw [nextBlocks_of_requests hrq, hpp]; rfl, hd.threads, ?_, fun p => ?_, ?_⟩
    · obtain ⟨hgt, hcs⟩ := hps.popFor hn hpp
      rw [hr, hd.frames]
      refine hi.layout.of_cover_le
        (Positive.append.mpr ⟨hcs, Positive.cons.mpr ⟨hgt, hrt⟩⟩) fun p => ?_
      rw [cover_append, cover_append, cover_cons, popFor_cover hps hpp]
      omega
    · have := hi.conserved p
      rw [popFor_cover hps hpp] at this
      rw [hr, hu, cover_cons]
      omega
    · rw [hd.shape.reservedStart, hd.frames]
      exact hi.indexed
  · refine ⟨_, rfl, hrl.threads, ?_, fun p => ?_, ?_⟩
    · obtain ⟨hb, -⟩ := Positive.cons.mp hly.positive
      rw [hr, hrl.frames]
      refine hly.of_cover_le (Positive.append.mpr ⟨hps.addOrdered hb, hrt⟩) fun p => ?_
      rw [cover_append, addOrdered_cover, cover_cons, cover_append]
      omega
    · have := hi.conserved p
      rw [hr, hu, addOrdered_cover, cover_cons]
      omega
    · rw [hrl.shape.reservedStart, hrl.frames]
      exact hi.indexed
  · exact ⟨bs, rfl, hi.store hh, hi.layout, hi.conserved, hi.indexed⟩

def Reached (ok : System → Event → Prop) (memmap : List MemmapEntry) (t : System) : Prop :=
  ∃ mem pmm, comMmPmmInit mem memmap = some pmm ∧
    Runs.Reaches next (fun t e => Enabled memmap t e ∧ ok t e) ⟨pmm, [], []⟩ t

end PhysicalMemory
