import SalernosKernel.PhysicalMemoryRuns

/-! # Exclusive, ordered and zeroed pages

Three properties of every run of the allocator. -/
namespace PhysicalMemory

open TailQueue (Queue Represents)
open Spans BlockList Option

variable {memmap : List MemmapEntry} {t t' : System} {e : Event} {bs cs : List Span}
  {n p a phys : ℕ} {s' : State}

instance (bs : List Span) (e : Event) : Decidable (FrontKept bs e) :=
  inferInstanceAs (Decidable (∀ n ∈ e.requests, n ≠ 1 → FrontIntact n bs))

def trace (ok : System → Event → Prop) [∀ t e, Decidable (ok t e)] (memmap : List MemmapEntry)
    (es : List Event) : Option System :=
  (comMmPmmInit (fun _ => 0) memmap).bind fun pmm =>
    Runs.run next (fun t e => Enabled memmap t e ∧ ok t e) ⟨pmm, [], []⟩ es

theorem trace_reached {ok : System → Event → Prop} [∀ t e, Decidable (ok t e)] {es : List Event}
    (h : trace ok memmap es = some t) : Reached ok memmap t := by
  obtain ⟨pmm, hin, hrn⟩ := bind_eq_some_iff.mp h
  exact ⟨_, pmm, hin, Runs.run_reaches hrn⟩

structure Exclusive (memmap : List MemmapEntry) (t : System) : Prop where
  listed : Threads t.pmm.freeList (freeBlocks t.pmm)
  disjoint : (t.returned ++ freeBlocks t.pmm).Pairwise Span.Disjoint
  once : (freeBlocks t.pmm).Nodup
  inside : ∀ r ∈ t.returned ++ freeBlocks t.pmm, ∀ p, r.Covers p →
    ∃ u ∈ usableSpans memmap ++ t.unreserved, u.Covers p

theorem Invariant.exclusive (hmap : UsableMap memmap) (h : Invariant memmap t bs) :
    Exclusive memmap t := by
  have hbs := h.freeBlocks_eq
  have hl : Layout t.pmm.frames (t.returned ++ bs) :=
    h.layout.of_cover_le (Positive.append.mpr (Positive.append.mp h.layout.positive).symm)
      fun p => by rw [cover_append, cover_append, add_comm]
  refine ⟨hbs ▸ h.threads, hbs ▸ hl.pairwise, ?_, fun r hr p hp => ?_⟩
  · rw [hbs]
    exact h.layout.left.nodup.of_map _
  · rw [hbs] at hr
    refine cover_pos.mp ?_
    have hcv : 0 < cover (t.returned ++ bs) p := cover_pos.mpr ⟨r, hr, hp⟩
    have hbt : cover (bootBlocks memmap) p ≤ cover (usableSpans memmap) p :=
      bootBlocksFrom_cover_le hmap
    have := h.conserved p
    rw [cover_append] at *
    omega

/-- In a run where no request takes the whole first block while the second is larger, free
blocks and returned ranges never overlap. -/
theorem reached_exclusive (hmap : UsableMap memmap)
    (h : Reached (fun t e => FrontKept (freeBlocks t.pmm) e) memmap t) : Exclusive memmap t := by
  obtain ⟨mem, pmm, hin, hrn⟩ := h
  have hiv : ∃ bs, Invariant memmap t bs := by
    refine hrn.invariant (fun t => ∃ bs, Invariant memmap t bs)
      ⟨_, boot_invariant hmap hin⟩ ?_
    rintro t e t' ⟨bs, hi⟩ ⟨he, hf⟩ hn
    rw [hi.freeBlocks_eq] at hf
    obtain ⟨cs, -, hi'⟩ := next_invariant hmap hi he hf hn
    exact ⟨cs, hi'⟩
  obtain ⟨bs, hi⟩ := hiv
  exact hi.exclusive hmap

def inserted (bs : List Span) : Event → Option (Span × List Span)
  | .unreserveMany base n => some (⟨base / archPageSize, n⟩, bs)
  | e => e.requests.bind fun n => reinserted n bs

def EachInsert (P : Span → List Span → Prop) (bs : List Span) (e : Event) : Prop :=
  ∀ x ∈ inserted bs e, P x.1 x.2

instance (P : Span → List Span → Prop) [∀ b bs, Decidable (P b bs)] (bs : List Span) (e : Event) :
    Decidable (EachInsert P bs e) :=
  inferInstanceAs (Decidable (∀ x ∈ inserted bs e, P x.1 x.2))

def NoMerge (b : Span) (bs : List Span) : Prop := ¬ Merges b bs
  deriving Decidable

def sampleMap : List MemmapEntry :=
  [⟨0x1000, 0x8000, .usable⟩, ⟨0x10000, 0x2000, .kernelAndModules⟩]

def sampleEvents : List Event :=
  [.alloc, .store 0xffff800000008010 7, .allocMany 3, .unreserveMany 0x10000 2, .allocMax 5]

theorem sampleMap_usable : UsableMap sampleMap := ⟨by decide, by decide, by decide⟩

def frontKeptRun : Option System :=
  trace (fun t e => FrontKept (freeBlocks t.pmm) e) sampleMap sampleEvents

def orderedRun : Option System :=
  trace (fun t e => EachInsert MergeFits (freeBlocks t.pmm) e) sampleMap sampleEvents

def unmergedRun : Option System :=
  trace (fun t e => EachInsert NoMerge (freeBlocks t.pmm) e) sampleMap sampleEvents

theorem sampleRuns_isSome : frontKeptRun.isSome ∧ orderedRun.isSome ∧ unmergedRun.isSome := by
  decide +kernel

theorem frontKeptRun_isSome : frontKeptRun.isSome := sampleRuns_isSome.1

theorem reached_exclusive_sample : Exclusive sampleMap (frontKeptRun.get frontKeptRun_isSome) :=
  reached_exclusive sampleMap_usable (trace_reached (some_get _).symm)

def mergeMap : List MemmapEntry :=
  [⟨0x1000, 0x1000, .usable⟩, ⟨0x11000, 0x2000, .kernelAndModules⟩, ⟨0x13000, 0x1000, .usable⟩]

/-- The two module pages merge behind the one-page block, so the list is out of order; taking
its head then puts the head back, and the next request returns it again. -/
def doubleRun : Option System :=
  trace (fun _ _ => True) mergeMap
    [.unreserveMany 0x11000 1, .unreserveMany 0x12000 1, .allocMax 2, .allocMax 3]

def unorderedRun : Option System :=
  trace (fun _ _ => True) mergeMap [.unreserveMany 0x11000 1, .unreserveMany 0x12000 1]

def moduleMap : List MemmapEntry :=
  [⟨0x1000, 0x1000, .usable⟩, ⟨0x11000, 0x2000, .kernelAndModules⟩]

def mergedRun : Option System :=
  trace (fun _ _ => True) moduleMap [.unreserveMany 0x11000 1, .unreserveMany 0x12000 1]

theorem mergeRuns_isSome : doubleRun.isSome ∧ unorderedRun.isSome ∧ mergedRun.isSome := by
  decide +kernel

theorem doubleRun_isSome : doubleRun.isSome := mergeRuns_isSome.1

theorem stale_front_returned_twice :
    ∃ t, UsableMap mergeMap ∧ Reached (fun _ _ => True) mergeMap t ∧
      t.returned = [⟨0x11, 3⟩, ⟨0x13, 1⟩] ∧ ¬ Exclusive mergeMap t := by
  refine ⟨doubleRun.get doubleRun_isSome, ⟨by decide, by decide, by decide⟩,
    trace_reached (some_get _).symm, by decide +kernel, fun h => ?_⟩
  have hd := (List.pairwise_append.mp h.disjoint).1
  revert hd
  decide +kernel

theorem EachInsert.reinserted {P : Span → List Span → Prop} (h : EachInsert P bs e)
    (hn : e.requests = some n) : ∀ x ∈ reinserted n bs, P x.1 x.2 := by
  have heq : inserted bs e = BlockList.reinserted n bs := by
    cases e <;> simp_all [inserted, Event.requests]
  rwa [← heq]

theorem sorted_nextBlocks (hs : Sorted bs) (hps : Positive bs) (hok : EachInsert MergeFits bs e)
    (h : nextBlocks bs e = some cs) : Sorted cs := by
  by_cases hrq : ∃ n, e.requests = some n
  · obtain ⟨n, hn⟩ := hrq
    rw [nextBlocks_of_requests hn] at h
    obtain ⟨⟨got, cs'⟩, hpp, rfl⟩ := map_eq_some_iff.mp h
    exact hs.popFor hps (hok.reinserted hn) hpp
  · cases e with
    | unreserveMany base n =>
      cases h
      exact hs.addOrdered hps (hok _ rfl)
    | store a v =>
      cases h
      exact hs
    | _ => simp [Event.requests] at hrq

theorem sorted_frontKept (hs : Sorted bs) : FrontKept bs e := fun n _ _ => hs.frontIntact n

theorem sorted_boot (hmap : UsableMap memmap)
    (hbt : EachAdd MergeFits [] (bootBlocks memmap)) : Sorted (addAll [] (bootBlocks memmap)) :=
  Sorted.addAll List.Pairwise.nil Positive.nil (bootBlocks_layout hmap).positive hbt

theorem reached_invariant_sorted (hmap : UsableMap memmap)
    (hbt : EachAdd MergeFits [] (bootBlocks memmap))
    (h : Reached (fun t e => EachInsert MergeFits (freeBlocks t.pmm) e) memmap t) :
    ∃ bs, Invariant memmap t bs ∧ Sorted bs := by
  obtain ⟨mem, pmm, hin, hrn⟩ := h
  refine hrn.invariant (fun t => ∃ bs, Invariant memmap t bs ∧ Sorted bs)
    ⟨_, boot_invariant hmap hin, sorted_boot hmap hbt⟩ ?_
  rintro t e t' ⟨bs, hi, hs⟩ ⟨he, hok⟩ hn
  rw [hi.freeBlocks_eq] at hok
  obtain ⟨cs, hcs, hi'⟩ := next_invariant hmap hi he (sorted_frontKept hs) hn
  exact ⟨cs, hi', sorted_nextBlocks hs hi.layout.left.positive hok hcs⟩

/-- With merges that keep the order, the list stays in order, and a request gets its pages whenever
some block has them. -/
theorem reached_sorted (hmap : UsableMap memmap) (hboot : EachAdd MergeFits [] (bootBlocks memmap))
    (h : Reached (fun t e => EachInsert MergeFits (freeBlocks t.pmm) e) memmap t) :
    Threads t.pmm.freeList (freeBlocks t.pmm) ∧ Sorted (freeBlocks t.pmm) ∧
    ∀ n, (∃ b ∈ freeBlocks t.pmm, n ≤ b.size) →
      ∃ virt q, freelistPopFrontNolock t.pmm.frames t.pmm.freeList n = some (n, virt, q) := by
  obtain ⟨bs, hi, hs⟩ := reached_invariant_sorted hmap hboot h
  rw [hi.freeBlocks_eq]
  refine ⟨hi.threads, hs, fun n hlarge => ?_⟩
  obtain ⟨b, hb, hle⟩ := hlarge
  rcases freelistPopFrontNolock_refines hi.threads (hs.frontIntact n) hi.layout.left.length_le with
    ⟨rfl, -⟩ | ⟨got, cs, q, hpp, hq, -⟩
  · simp at hb
  · obtain rfl : got.size = n := by
      cases bs with
      | nil => simp at hb
      | cons c cs => exact popFront_size (hle.trans (hs.le_head hb)) hpp
    exact ⟨_, q, hq⟩

theorem orderedRun_isSome : orderedRun.isSome := sampleRuns_isSome.2.1

theorem reached_sorted_sample :
    let t := orderedRun.get orderedRun_isSome
    t.returned = [⟨2, 3⟩, ⟨5, 3⟩, ⟨8, 1⟩] ∧ Threads t.pmm.freeList (freeBlocks t.pmm) ∧
      Sorted (freeBlocks t.pmm) ∧ ∀ n, (∃ b ∈ freeBlocks t.pmm, n ≤ b.size) →
        ∃ virt q, freelistPopFrontNolock t.pmm.frames t.pmm.freeList n = some (n, virt, q) :=
  ⟨by decide +kernel, reached_sorted sampleMap_usable (by decide)
    (trace_reached (some_get _).symm)⟩

theorem unorderedRun_isSome : unorderedRun.isSome := mergeRuns_isSome.2.1

/-- The list is then out of order, and a request for the two pages of the last block fails its
assertion. -/
theorem tail_merge_breaks_order : ∃ t, UsableMap mergeMap ∧ Reached (fun _ _ => True) mergeMap t ∧
      freeBlocks t.pmm = [⟨0x13, 1⟩, ⟨0x11, 2⟩] ∧ ¬ Sorted (freeBlocks t.pmm) ∧
      (comMmPmmAllocMany t.pmm 2).isNone :=
  ⟨unorderedRun.get unorderedRun_isSome, ⟨by decide, by decide, by decide⟩,
    trace_reached (some_get _).symm, by decide +kernel, by decide +kernel,
    by decide +kernel⟩

def Clean (s : State) (bs : List Span) : Prop :=
  ∀ p, 0 < cover bs p → ∀ a, OnFrame p a → (∀ r ∈ starts bs, ¬ InHeader r a) →
    s.freeList.mem a = 0

theorem EachAdd.mono {P Q : Span → List Span → Prop} (hPQ : ∀ b bs, P b bs → Q b bs)
    (h : EachAdd P bs cs) : EachAdd Q bs cs := by
  induction cs generalizing bs with
  | nil => trivial
  | cons b l ih => exact ⟨hPQ _ _ h.1, ih h.2⟩

theorem starts_addAll_perm (h : EachAdd NoMerge bs cs) :
    (starts (addAll bs cs)).Perm (starts bs ++ starts cs) := by
  induction cs generalizing bs with
  | nil => simp [addAll]
  | cons b l ih =>
    have hb := ((addOrdered_perm h.1).map Span.start).append_right (starts l)
    exact (ih h.2).trans (hb.trans List.perm_middle.symm)

theorem boot_clean {mem : ℕ → ℕ} {s : State} (hmap : UsableMap memmap)
    (hbt : EachAdd NoMerge [] (bootBlocks memmap)) (h : comMmPmmInit mem memmap = some s) :
    Clean s (addAll [] (bootBlocks memmap)) := by
  intro p hp a ha hh
  refine (comMmPmmInit_booted hmap h).clean p ?_ a ha fun r hr => hh r ?_
  · rw [addAll_cover, cover_nil, zero_add] at hp
    exact hp.trans_le (bootBlocksFrom_cover_le hmap)
  · exact (starts_addAll_perm hbt).mem_iff.mpr hr

section Delivery

variable {s : State} {bound : ℕ} {got : Span}

theorem Delivery.zero_of_clean (hd : Delivery s s' bs cs got) (hc : Clean s bs)
    (hsb : starts bs ⊆ got.start :: starts cs) (hp : 0 < cover bs p) (ha : OnFrame p a)
    (hg : ¬ InHeader got.start a) (hh : ∀ r ∈ starts cs, ¬ InHeader r a) :
    s'.freeList.mem a = 0 := by
  have hbs : ∀ r ∈ starts bs, ¬ InHeader r a := by
    intro r hr
    rcases List.mem_cons.mp (hsb hr) with rfl | hr
    · exact hg
    · exact hh r hr
  rw [hd.frame a fun r hr => (List.mem_cons.mp hr).elim (fun he => he ▸ hg) (hbs r)]
  exact hc p hp a ha hbs

theorem Delivery.clean (hd : Delivery s s' bs cs got) (hc : Clean s bs)
    (hsb : starts bs ⊆ got.start :: starts cs) (hl : Layout bound (got :: cs))
    (hcv : ∀ p, cover bs p = got.hits p + cover cs p) : Clean s' cs := by
  intro p hp a ha hh
  refine hd.zero_of_clean hc hsb (by rw [hcv]; omega) ha (fun hg => ?_) hh
  -- The returned header is on a page of its own.
  obtain rfl := hg.onFrame.unique ha
  have := hits_pos.mpr (⟨le_rfl, Nat.lt_add_of_pos_right (hl.positive got (by simp))⟩ :
    got.Covers got.start)
  have := hl.once got.start
  rw [cover_cons] at this
  omega

theorem Delivery.zero (hd : Delivery s s' bs cs got) (hc : Clean s bs)
    (hsb : starts bs ⊆ got.start :: starts cs) (hl : Layout bound (got :: cs))
    (hcv : ∀ p, cover bs p = got.hits p + cover cs p) (hp : got.Covers p) (ha : OnFrame p a) :
    s'.freeList.mem a = 0 := by
  by_cases hg : InHeader got.start a
  · exact hd.cleared a hg
  have hps := hits_pos.mpr hp
  refine hd.zero_of_clean hc hsb (by rw [hcv]; omega) ha hg fun r hr hr' => ?_
  obtain rfl := hr'.onFrame.unique ha
  have := cover_start_pos (Positive.cons.mp hl.positive).2 hr
  have := hl.once r
  rw [cover_cons] at this
  omega

theorem Release.clean {b : Span} (hr : Release s s' bs b) (hc : Clean s bs) (hm : NoMerge b bs) :
    Clean s' (addOrdered b bs) := by
  intro p hp a ha hh
  have hpr := (addOrdered_perm hm).map Span.start
  have hh' : ∀ r ∈ b.start :: starts bs, ¬ InHeader r a := fun r hr' => hh r (hpr.mem_iff.mpr hr')
  by_cases hb : b.Covers p
  · exact hr.zeroed p hb a ha hh'
  · rw [hr.frame p hb a ha hh']
    rw [addOrdered_cover, show b.hits p = 0 from if_neg hb, zero_add] at hp
    exact hc p hp a ha fun r hr' => hh' r (List.mem_cons_of_mem _ hr')

end Delivery

theorem next_clean (hmap : UsableMap memmap) (hi : Invariant memmap t bs) (hs : Sorted bs)
    (hc : Clean t.pmm bs) (he : Enabled memmap t e) (hok : EachInsert NoMerge bs e)
    (h : next t e = some t') (hcs : nextBlocks bs e = some cs) : Clean t'.pmm cs := by
  rcases next_cases hmap hi he (sorted_frontKept hs) h with
    ⟨n, got, ds, hrq, hn, hpp, hd, -, -⟩ | ⟨base, n, rfl, hrl, -, -, -⟩ | ⟨a, v, rfl, hh, rfl⟩
  · obtain rfl : ds = cs := by simpa [nextBlocks_of_requests hrq, hpp] using hcs
    exact hd.clean hc (starts_popFor (hok.reinserted hrq) hpp)
      (popFor_layout hi.layout.left hn hpp) fun p => popFor_cover hi.layout.left.positive hpp
  · cases hcs
    exact hrl.clean hc (hok _ rfl)
  · cases hcs
    intro p hp b hb hhb
    have hne : b ≠ a := by
      rintro rfl
      exact hi.not_held hp hb hh
    exact (Function.update_of_ne hne _ _).trans (hc p hp b hb hhb)

theorem reached_invariant_clean (hmap : UsableMap memmap)
    (hbt : EachAdd NoMerge [] (bootBlocks memmap))
    (h : Reached (fun t e => EachInsert NoMerge (freeBlocks t.pmm) e) memmap t) :
    ∃ bs, Invariant memmap t bs ∧ Sorted bs ∧ Clean t.pmm bs := by
  obtain ⟨mem, pmm, hin, hrn⟩ := h
  refine hrn.invariant (fun t => ∃ bs, Invariant memmap t bs ∧ Sorted bs ∧ Clean t.pmm bs)
    ⟨_, boot_invariant hmap hin, sorted_boot hmap ?_, boot_clean hmap hbt hin⟩ ?_
  · exact EachAdd.mono (fun _ _ => mergeFits_of_not_merges) hbt
  · rintro t e t' ⟨bs, hi, hs, hc⟩ ⟨he, hok⟩ hn
    rw [hi.freeBlocks_eq] at hok
    obtain ⟨cs, hcs, hi'⟩ := next_invariant hmap hi he (sorted_frontKept hs) hn
    exact ⟨cs, hi', sorted_nextBlocks hs hi.layout.left.positive
      (fun x hx => mergeFits_of_not_merges (hok x hx)) hcs, next_clean hmap hi hs hc he hok hn hcs⟩

def ZeroPages (s : State) (phys n : ℕ) : Prop :=
  ∀ a, archPhysToHhdm phys ≤ a → a < archPhysToHhdm phys + n * archPageSize →
    s.freeList.mem a = 0

theorem allocMax_zero {s : State} {out : Option ℕ} (ht : Threads s.freeList bs)
    (hl : Layout s.frames bs) (hs : Sorted bs) (hc : Clean s bs) (hn : 0 < n)
    (hm : ∀ x ∈ reinserted n bs, NoMerge x.1 x.2)
    (h : comMmPmmAllocMax s n = some (phys, out, s')) : ZeroPages s' phys (out.getD 1) := by
  obtain ⟨got, cs, hpp, rfl, hsz, hd⟩ :=
    comMmPmmAllocMax_refines ht hl hn (fun _ => hs.frontIntact n) h
  intro a hlo hhi
  have hfm : archPhysToHhdm (got.start * archPageSize) = frameAddr got.start := by
    rw [frameAddr]
  rw [hfm] at hlo hhi
  rw [← hsz] at hhi
  let p := archHhdmToPhys a / archPageSize
  have ha : OnFrame p a := by
    simp only [p, OnFrame, frameAddr_eq, archHhdmToPhys, hhdmOffset, archPageSize] at *
    omega
  exact hd.zero hc (starts_popFor hm hpp) (popFor_layout hl hn hpp)
    (fun p => popFor_cover hl.positive hpp) ((onFrame_in_span ha).mp ⟨hlo, hhi⟩) ha

/-- In a run where no one-page block is merged with the last block, all three allocators return
zero pages. -/
theorem reached_zeroed (hmap : UsableMap memmap) (hboot : EachAdd NoMerge [] (bootBlocks memmap))
    (h : Reached (fun t e => EachInsert NoMerge (freeBlocks t.pmm) e) memmap t) (hn : 0 < n)
    (hm : ∀ x ∈ reinserted n (freeBlocks t.pmm), NoMerge x.1 x.2) :
    (∀ phys s', comMmPmmAllocZero t.pmm = some (phys, s') → ZeroPages s' phys 1) ∧
    (∀ phys s', comMmPmmAllocManyZero t.pmm n = some (phys, s') → ZeroPages s' phys n) ∧
    ∀ phys out s', comMmPmmAllocMaxZero t.pmm n = some (phys, out, s') →
      ZeroPages s' phys (out.getD 1) := by
  obtain ⟨bs, hi, hs, hc⟩ := reached_invariant_clean hmap hboot h
  rw [hi.freeBlocks_eq] at hm
  have hmx : ∀ {n phys out s'}, 0 < n → (∀ x ∈ reinserted n bs, NoMerge x.1 x.2) →
      comMmPmmAllocMax t.pmm n = some (phys, out, s') → ZeroPages s' phys (out.getD 1) :=
    fun hn hm h => allocMax_zero hi.threads hi.layout.left hs hc hn hm h
  refine ⟨fun phys s' ha => ?_, fun phys s' ha => ?_, fun phys out s' ha => hmx hn hm ha⟩
  · obtain ⟨out, ho, hsz⟩ := comMmPmmAllocMany_eq (n := 1) ha
    have h1 : ∀ x ∈ reinserted 1 bs, NoMerge x.1 x.2 := by
      unfold reinserted
      split <;> simp
    exact hsz ▸ hmx one_pos h1 ho
  · obtain ⟨out, ho, hsz⟩ := comMmPmmAllocMany_eq ha
    exact hsz ▸ hmx hn hm ho

theorem unmergedRun_isSome : unmergedRun.isSome := sampleRuns_isSome.2.2

theorem reached_zeroed_sample :
    let s := (unmergedRun.get unmergedRun_isSome).pmm
    (comMmPmmAllocManyZero s 2).map Prod.fst = some 0x10000 ∧
    (∀ phys s', comMmPmmAllocZero s = some (phys, s') → ZeroPages s' phys 1) ∧
    (∀ phys s', comMmPmmAllocManyZero s 2 = some (phys, s') → ZeroPages s' phys 2) ∧
    ∀ phys out s', comMmPmmAllocMaxZero s 2 = some (phys, out, s') →
      ZeroPages s' phys (out.getD 1) :=
  ⟨by decide +kernel, reached_zeroed sampleMap_usable (by decide)
    (trace_reached (some_get _).symm) (by decide) (by decide +kernel)⟩

theorem mergedRun_isSome : mergedRun.isSome := mergeRuns_isSome.2.2

def mergedAlloc : Option (ℕ × State) :=
  comMmPmmAllocManyZero (mergedRun.get mergedRun_isSome).pmm 2

theorem mergedAlloc_isSome : mergedAlloc.isSome := by decide +kernel

/-- The page count in the swallowed header of the second page is still there. -/
theorem merged_header_returned :
    ∃ t phys s', UsableMap moduleMap ∧ Reached (fun _ _ => True) moduleMap t ∧
      comMmPmmAllocManyZero t.pmm 2 = some (phys, s') ∧ ¬ ZeroPages s' phys 2 := by
  refine ⟨mergedRun.get mergedRun_isSome, (mergedAlloc.get mergedAlloc_isSome).1, (mergedAlloc.get
    mergedAlloc_isSome).2, ⟨by decide, by decide, by decide⟩, trace_reached (some_get _).symm,
    (some_get mergedAlloc_isSome).symm, fun h => ?_⟩
  have hz := h 0xffff800000012010 (by decide +kernel) (by decide +kernel)
  revert hz
  decide +kernel

end PhysicalMemory
