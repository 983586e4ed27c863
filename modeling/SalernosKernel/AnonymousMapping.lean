import SalernosKernel.FileMapping
import SalernosKernel.VmmUnmap

/-! # Ranges of anonymous memory

`com_mm_vmm_map` and `com_mm_vmm_prealloc_range` take addresses from one counter of pages per address
space, in 64-bit arithmetic. -/
namespace AnonymousMapping

open PageTable PageTableDuplicate List FileMapping
open VmmUnmap (Overlaps)

structure Request where
  mapFixed : Bool
  mapAnonymous : Bool
  mapShared : Bool
  mapPrivate : Bool
  protRead : Bool
  protWrite : Bool

def makeVmmFlags (r : Request) : VmmFlags :=
  (if r.mapFixed then 0 else comMmVmmFlagsNohint) |||
    (if r.mapAnonymous then comMmVmmFlagsAnonymous else 0) |||
    if r.mapShared then comMmVmmFlagsShared else if r.mapPrivate then comMmVmmFlagsPrivate else 0

def makeMmuFlags (r : Request) : Entry :=
  archMmuFlagsPresent ||| archMmuFlagsUser ||| (if r.protWrite then archMmuFlagsWrite else 0) |||
    if r.protRead then archMmuFlagsRead else 0

def untouchedFlags (r : Request) : Entry :=
  mapFlags (makeVmmFlags r ||| comMmVmmFlagsAllocate) (makeMmuFlags r)

def sizeInPages (size : ℕ) : ℕ := (size + archPageSize - 1) % 2 ^ 64 / archPageSize

def comMmVmmPreallocRange (s : Space) (len : ℕ) : ℕ × Space :=
  ((s.anonPages * archPageSize + configVmmAnonStart) % 2 ^ 64,
    { s with anonPages := (s.anonPages + sizeInPages len) % 2 ^ 64 })

def anonymousMmap (zeroPage : Entry) (s : Space) (size : ℕ) (r : Request) : ℕ × Space :=
  let (virt, s) := comMmVmmPreallocRange s size
  (virt, mapLoop zeroPage true virt 0 (untouchedFlags r) (sizeInPages size) s)

structure Proc where
  space : Space
  ranges : List (ℕ × ℕ)

inductive Event where
  | anonymous (i size : ℕ) (r : Request)
  | file (i off size : ℕ) (pt : Pagetable)
  | fork (i : ℕ)

def next (zeroPage : Entry) (rootTable : Pagetable) (s : List Proc) : Event → Option (List Proc)
  | .anonymous i size r => s[i]?.map fun p =>
    let (virt, space) := anonymousMmap zeroPage p.space size r
    s.set i ⟨space, (virt, size) :: p.ranges⟩
  | .file i off size pt => s[i]?.map fun p =>
    let (rangeBase, space) := comMmVmmPreallocRange p.space size
    s.set i ⟨{ space with pagetable := pt }, (rangeBase + off % archPageSize, size) :: p.ranges⟩
  | .fork i => s[i]?.map fun p =>
    let d := archMmuDuplicateTable rootTable p.space.pagetable
    s.set i { p with space := { p.space with pagetable := d.old } } ++
      [{ p with space := { p.space with pagetable := d.new } }]

/-- The pages counted hold the range, and the counter stays within the address space. -/
abbrev Fits (s : Space) (off size : ℕ) : Prop :=
  0 < size ∧ off % archPageSize + size ≤ sizeInPages size * archPageSize ∧
    (s.anonPages + sizeInPages size) * archPageSize + configVmmAnonStart ≤ 2 ^ 64

def AllFit (s : List Proc) : Event → Prop
  | .anonymous i size _ => ∀ p ∈ s[i]?, Fits p.space 0 size
  | .file i off size _ => ∀ p ∈ s[i]?, Fits p.space off size
  | .fork _ => True

instance (s : List Proc) : DecidablePred (AllFit s)
  | .anonymous .. | .file .. => inferInstanceAs (Decidable (∀ p ∈ _, Fits _ _ _))
  | .fork _ => inferInstanceAs (Decidable True)

def Apart (ranges : List (ℕ × ℕ)) : Prop :=
  ranges.Pairwise fun a b => ∀ k, ¬ (Overlaps a.1 a.2 k ∧ Overlaps b.1 b.2 k)

def Covered (pt : Pagetable) (b size : ℕ) : Prop :=
  ∀ k, Overlaps b size k → present (leaf pt (archPageSize * k))

structure Inv (p : Proc) : Prop where
  apart : Apart p.ranges
  below : ∀ r ∈ p.ranges, ∀ k, Overlaps r.1 r.2 k →
    k < configVmmAnonStart / archPageSize + p.space.anonPages

variable {zeroPage flags : Entry} {rootTable : Pagetable} {s : Space} {p : Proc} {n off size : ℕ}

theorem prealloc_eq (h : Fits s off size) : comMmVmmPreallocRange s size =
    (s.anonPages * archPageSize + configVmmAnonStart,
      { s with anonPages := s.anonPages + sizeInPages size }) := by
  unfold Fits archPageSize configVmmAnonStart at h
  rw [comMmVmmPreallocRange, archPageSize, configVmmAnonStart, Nat.mod_eq_of_lt (by omega),
    Nat.mod_eq_of_lt (by omega)]

theorem overlaps_range (h : Fits s off size) {k : ℕ} (hk : Overlaps
    (s.anonPages * archPageSize + configVmmAnonStart + off % archPageSize) size k) :
    configVmmAnonStart / archPageSize + s.anonPages ≤ k ∧
      k < configVmmAnonStart / archPageSize + (s.anonPages + sizeInPages size) := by
  obtain ⟨a, hle, hlt, rfl⟩ := hk
  unfold Fits archPageSize configVmmAnonStart at *
  omega

theorem mapLoop_anonPages (virt : ℕ) :
    (mapLoop zeroPage true virt 0 flags n s).anonPages = s.anonPages := by
  induction n with
  | zero => rfl
  | succ n ih =>
    rw [mapLoop, range_succ, foldl_append]
    exact ih

theorem Inv.push (h : Inv p) (hft : Fits p.space off size) {space : Space} {b : ℕ}
    (hb : b = p.space.anonPages * archPageSize + configVmmAnonStart + off % archPageSize)
    (hsp : space.anonPages = p.space.anonPages + sizeInPages size) :
    Inv ⟨space, (b, size) :: p.ranges⟩ := by
  subst hb
  constructor
  · refine pairwise_cons.mpr ⟨fun r hr k hk => ?_, h.apart⟩
    have hnw := overlaps_range hft hk.1
    have hold := h.below r hr k hk.2
    omega
  · intro r hr k hk
    rw [hsp]
    rcases mem_cons.mp hr with rfl | hr
    · exact (overlaps_range hft hk).2
    · have hold := h.below r hr k hk
      omega

theorem Inv.next {l l' : List Proc} {e : Event} (h : ∀ p ∈ l, Inv p) (hok : AllFit l e)
    (hn : next zeroPage rootTable l e = some l') : ∀ p ∈ l', Inv p := by
  have hst : ∀ i p q, Inv p → q ∈ l.set i p → Inv q :=
    fun i p q hp hq => (mem_or_eq_of_mem_set hq).elim (h q) fun heq => heq ▸ hp
  cases e with
  | anonymous i size r =>
    obtain ⟨p, hp, rfl⟩ := Option.map_eq_some_iff.mp hn
    have hft := hok p hp
    intro q hq
    rw [anonymousMmap, prealloc_eq hft] at hq
    refine hst i _ q ((h p (mem_of_getElem? hp)).push hft ?_ (mapLoop_anonPages _)) hq
    rw [Nat.zero_mod, Nat.add_zero]
  | file i off size pt =>
    obtain ⟨p, hp, rfl⟩ := Option.map_eq_some_iff.mp hn
    have hft := hok p hp
    intro q hq
    rw [prealloc_eq hft] at hq
    exact hst i _ q ((h p (mem_of_getElem? hp)).push hft rfl rfl) hq
  | fork i =>
    obtain ⟨p, hp, rfl⟩ := Option.map_eq_some_iff.mp hn
    have hiv := h p (mem_of_getElem? hp)
    intro q hq
    rcases mem_append.mp hq with hq | hq
    · refine hst i _ q ?_ hq
      exact ⟨hiv.apart, hiv.below⟩
    · obtain rfl := mem_singleton.mp hq
      exact ⟨hiv.apart, hiv.below⟩

def sampleRequest : Request := ⟨false, true, false, true, true, true⟩

end AnonymousMapping
