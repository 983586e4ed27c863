import SalernosKernel.PageTable
import SalernosKernel.Runs

/-! # Prefaulting around a page fault

`x86_64_mmu_fault_isr` widens a fault on an untouched page to its neighbours with the same flags. -/
namespace PageFaultPrefault

open PageTable Runs

def configVmmPrefaultMax : ℕ := 512
def comMmVmmFaultAttrCow : BitVec 32 := 1
def comMmVmmFaultAttrMap : BitVec 32 := 2
def comMmVmmPrefaultSupportedAttr : BitVec 32 := comMmVmmFaultAttrMap

abbrev Ptr := BitVec 64

def pages (n : ℕ) : Ptr := BitVec.ofNat 64 (archPageSize * n)

structure Scan where
  startEntry : Entry
  startVirt : Ptr
  numPages : ℕ

def scanPrev (pt : Pagetable) (faultVirt : Ptr) (mmuFlags : Entry) : ℕ → Scan → Scan
  | 0, z => z
  | rounds + 1, z =>
    match getPage pt (faultVirt - pages z.numPages).toNat with
    | none => z
    | some prevEntry =>
      if mmuFlags ≠ prevEntry &&& ~~~addrMask then z
      else scanPrev pt faultVirt mmuFlags rounds
        ⟨prevEntry, z.startVirt - pages 1, z.numPages + 1⟩

def scanNext (pt : Pagetable) (faultVirt : Ptr) (mmuFlags : Entry) : ℕ → Scan → Scan
  | 0, z => z
  | rounds + 1, z =>
    match getPage pt (faultVirt + pages z.numPages).toNat with
    | none => z
    | some nextEntry =>
      if mmuFlags ≠ nextEntry &&& ~~~addrMask then z
      else scanNext pt faultVirt mmuFlags rounds { z with numPages := z.numPages + 1 }

structure FaultCall where
  virt : Ptr
  phys : Entry
  mmuFlagsHint : Entry
  attr : BitVec 32
  numPages : ℕ
  deriving DecidableEq

def mmuFlagsHint (entry : Entry) : Entry :=
  let hint := entry &&& ~~~addrMask
  let hint :=
    if has archMmuExtraFlagsPrivate entry then
      (hint &&& ~~~archMmuExtraFlagsPrivate) ||| archMmuFlagsWrite
    else hint
  if has archMmuExtraFlagsNocopy entry then hint &&& ~~~archMmuExtraFlagsNocopy else hint

def vmmAttr (entry : Entry) : BitVec 32 :=
  let attr := if has archMmuExtraFlagsPrivate entry then comMmVmmFaultAttrCow else 0
  -- The zero page need not be copied into a page that is already zero.
  if has archMmuExtraFlagsNocopy entry then
    (attr &&& ~~~comMmVmmFaultAttrCow) ||| comMmVmmFaultAttrMap
  else attr

def prefaultScan (pt : Pagetable) (faultVirt : Ptr) (entry : Entry) : Scan :=
  let mmuFlags := entry &&& ~~~addrMask
  let z : Scan := ⟨entry, faultVirt, 1⟩
  if comMmVmmPrefaultSupportedAttr &&& vmmAttr entry = 0 then z
  else
    let z := scanPrev pt faultVirt mmuFlags (configVmmPrefaultMax / 2 - z.numPages) z
    scanNext pt faultVirt mmuFlags (configVmmPrefaultMax - z.numPages) z

/-- `none` where the fault address has no leaf entry to read. -/
def x8664MmuFaultIsr (pt : Pagetable) (faultVirt : Ptr) : Option FaultCall :=
  (getPage pt faultVirt.toNat).map fun entry =>
    let z := prefaultScan pt faultVirt entry
    ⟨z.startVirt, z.startEntry &&& addrMask, mmuFlagsHint entry, vmmAttr entry, z.numPages⟩

def HasFlags (pt : Pagetable) (flags : Entry) (p : Ptr) : Prop :=
  (getPage pt p.toNat).map (· &&& ~~~addrMask) = some flags
  deriving Decidable

variable {pt : Pagetable} {fault : Ptr} {flags entry : Entry}

theorem not_hasFlags_of_none {p : Ptr} (h : getPage pt p.toNat = none) : ¬ HasFlags pt flags p := by
  simp [HasFlags, h]

theorem hasFlags_iff {p : Ptr} {e : Entry} (h : getPage pt p.toNat = some e) :
    HasFlags pt flags p ↔ e &&& ~~~addrMask = flags := by
  simp [HasFlags, h]

theorem pages_add (i j : ℕ) : pages (i + j) = pages i + pages j := by
  simp only [pages, mul_add, BitVec.ofNat_add]

def PrevHas (pt : Pagetable) (flags : Entry) (fault : Ptr) (k : ℕ) : Prop :=
  HasFlags pt flags (fault - pages k)
  deriving Decidable

def NextHas (pt : Pagetable) (flags : Entry) (fault : Ptr) (k : ℕ) : Prop :=
  HasFlags pt flags (fault + pages k)
  deriving Decidable

theorem scanPrev_eq (pt : Pagetable) (fault : Ptr) (flags : Entry) (rounds : ℕ) (z : Scan) :
    (scanPrev pt fault flags rounds z).numPages =
      z.numPages + runLength (PrevHas pt flags fault) rounds z.numPages ∧
    (scanPrev pt fault flags rounds z).startVirt =
      z.startVirt - pages (runLength (PrevHas pt flags fault) rounds z.numPages) := by
  induction rounds generalizing z with
  | zero => exact ⟨rfl, (BitVec.sub_zero _).symm⟩
  | succ rounds ih =>
    rw [scanPrev, runLength]
    cases hge : getPage pt (fault - pages z.numPages).toNat with
    | none =>
      have hnt : ¬ PrevHas pt flags fault z.numPages := not_hasFlags_of_none hge
      rw [if_neg hnt]
      exact ⟨rfl, (BitVec.sub_zero _).symm⟩
    | some e =>
      have hif : PrevHas pt flags fault z.numPages ↔ e &&& ~~~addrMask = flags := hasFlags_iff hge
      by_cases he : e &&& ~~~addrMask = flags
      · obtain ⟨hnm, hvr⟩ := ih ⟨e, z.startVirt - pages 1, z.numPages + 1⟩
        rw [if_pos (hif.mpr he)]
        simp only [he, ne_eq, not_true_eq_false, if_false]
        constructor
        · rw [hnm]
          dsimp only
          omega
        · rw [hvr, pages_add, BitVec.add_comm (pages _) (pages 1), ← BitVec.sub_sub]
      · rw [if_neg (mt hif.mp he)]
        dsimp only
        rw [if_pos (Ne.symm he)]
        exact ⟨rfl, (BitVec.sub_zero _).symm⟩

theorem scanNext_eq (pt : Pagetable) (fault : Ptr) (flags : Entry) (rounds : ℕ) (z : Scan) :
    (scanNext pt fault flags rounds z).numPages =
      z.numPages + runLength (NextHas pt flags fault) rounds z.numPages ∧
    (scanNext pt fault flags rounds z).startVirt = z.startVirt := by
  induction rounds generalizing z with
  | zero => exact ⟨rfl, rfl⟩
  | succ rounds ih =>
    rw [scanNext, runLength]
    cases hge : getPage pt (fault + pages z.numPages).toNat with
    | none =>
      have hnt : ¬ NextHas pt flags fault z.numPages := not_hasFlags_of_none hge
      rw [if_neg hnt]
      exact ⟨rfl, rfl⟩
    | some e =>
      have hif : NextHas pt flags fault z.numPages ↔ e &&& ~~~addrMask = flags := hasFlags_iff hge
      by_cases he : e &&& ~~~addrMask = flags
      · obtain ⟨hnm, hvr⟩ := ih { z with numPages := z.numPages + 1 }
        rw [if_pos (hif.mpr he)]
        simp only [he, ne_eq, not_true_eq_false, if_false]
        constructor
        · rw [hnm]
          dsimp only
          omega
        · exact hvr
      · rw [if_neg (mt hif.mp he)]
        dsimp only
        rw [if_pos (Ne.symm he)]
        exact ⟨rfl, rfl⟩

structure Untouched (pt : Pagetable) (fault : Ptr) (flags : Entry) (c : FaultCall) : Prop where
  containsFault : ∃ i < c.numPages, c.virt + pages i = fault
  bounded : c.numPages ≤ configVmmPrefaultMax
  sameFlags : ∀ i < c.numPages, HasFlags pt flags (c.virt + pages i)

structure Below (pt : Pagetable) (fault : Ptr) (flags : Entry) (b : ℕ) : Prop where
  bound : b < configVmmPrefaultMax / 2
  has : ∀ i < b, HasFlags pt flags (fault - pages (1 + i))
  ends : b + 1 < configVmmPrefaultMax / 2 → ¬ HasFlags pt flags (fault - pages (1 + b))

theorem below_run : Below pt fault flags
    (runLength (PrevHas pt flags fault) (configVmmPrefaultMax / 2 - 1) 1) := by
  constructor
  · exact lt_of_le_of_lt runLength_le (by decide)
  · intro i hi
    exact runLength_holds hi
  · intro hlt
    exact runLength_stops (P := PrevHas pt flags fault) (by omega)

theorem below_unique {b : ℕ} (h : Below pt fault flags b) :
    runLength (PrevHas pt flags fault) (configVmmPrefaultMax / 2 - 1) 1 = b := by
  have := h.bound
  apply runLength_unique (by omega) h.has
  intro hlt
  exact h.ends (by omega)

theorem supportsPrefault_of_nocopy (hn : has archMmuExtraFlagsNocopy entry) :
    ¬ comMmVmmPrefaultSupportedAttr &&& vmmAttr entry = 0 := by
  unfold vmmAttr
  rw [if_pos hn]
  split <;> decide

theorem sub_add_above (p : Ptr) (i j : ℕ) : p - pages i + pages (i + j) = p + pages j := by
  rw [pages_add]
  bv_omega

theorem sub_add_below (p : Ptr) (i j : ℕ) : p - pages (i + j) + pages i = p - pages j := by
  rw [pages_add]
  bv_omega

theorem prefaultScan_nocopy (pt : Pagetable) (fault : Ptr) (hn : has archMmuExtraFlagsNocopy entry) :
    let b := runLength (PrevHas pt (entry &&& ~~~addrMask) fault) (configVmmPrefaultMax / 2 - 1) 1
    let n := runLength (NextHas pt (entry &&& ~~~addrMask) fault) (configVmmPrefaultMax - (1 + b))
      (1 + b)
    (prefaultScan pt fault entry).startVirt = fault - pages b ∧
      (prefaultScan pt fault entry).numPages = 1 + b + n := by
  intro b n
  obtain ⟨hnm, hvr⟩ := scanPrev_eq pt fault (entry &&& ~~~addrMask) (configVmmPrefaultMax / 2 - 1)
    ⟨entry, fault, 1⟩
  rw [prefaultScan, if_neg (supportsPrefault_of_nocopy hn)]
  dsimp only
  obtain ⟨hnm', hvr'⟩ := scanNext_eq pt fault (entry &&& ~~~addrMask)
    (configVmmPrefaultMax - (scanPrev pt fault (entry &&& ~~~addrMask)
      (configVmmPrefaultMax / 2 - 1) ⟨entry, fault, 1⟩).numPages)
    (scanPrev pt fault (entry &&& ~~~addrMask) (configVmmPrefaultMax / 2 - 1) ⟨entry, fault, 1⟩)
  rw [hvr', hvr, hnm', hnm]
  exact ⟨rfl, rfl⟩

/-- The second loop checks the pages from `b + 1` on, while the range ends `c` pages above the
fault: the range is untouched if and only if those `c` pages have the flags as well. -/
theorem prefault_untouched_iff (he : getPage pt fault.toNat = some entry)
    (hn : has archMmuExtraFlagsNocopy entry) :
    ∃ c, x8664MmuFaultIsr pt fault = some c ∧ (Untouched pt fault (entry &&& ~~~addrMask) c ↔
        ∀ b n, Below pt fault (entry &&& ~~~addrMask) b → 1 + b + n ≤ configVmmPrefaultMax →
          (∀ i < n, HasFlags pt (entry &&& ~~~addrMask) (fault + pages (1 + b + i))) →
          ∀ i < n, HasFlags pt (entry &&& ~~~addrMask) (fault + pages (1 + i))) := by
  obtain ⟨hvr, hnm⟩ := prefaultScan_nocopy pt fault hn
  set flags := entry &&& ~~~addrMask
  set b := runLength (PrevHas pt flags fault) (configVmmPrefaultMax / 2 - 1) 1
  set n := runLength (NextHas pt flags fault) (configVmmPrefaultMax - (1 + b)) (1 + b)
  have hbl : Below pt fault flags b := below_run
  have hn_le : 1 + b + n ≤ configVmmPrefaultMax := by
    have : n ≤ configVmmPrefaultMax - (1 + b) := runLength_le
    have := hbl.bound
    omega
  refine ⟨_, by rw [x8664MmuFaultIsr, he]; rfl, ?_⟩
  constructor
  · intro h b' n' hb' hbound hal i hi
    obtain rfl : b = b' := below_unique hb'
    have hln : n' ≤ n := by
      by_contra hlt
      have hlt := Nat.lt_of_not_le hlt
      exact runLength_stops (P := NextHas pt flags fault) (show n < _ by omega) (hal n hlt)
    have := h.sameFlags (b + (1 + i)) (by dsimp only; omega)
    dsimp only at this
    rwa [hvr, sub_add_above] at this
  · intro hcn
    constructor
    · exact ⟨b, by dsimp only; omega, by dsimp only; rw [hvr, BitVec.sub_add_cancel]⟩
    · dsimp only
      omega
    · intro i hi
      dsimp only at hi ⊢
      rw [hnm] at hi
      rw [hvr]
      -- Below the fault the first loop has looked, above it only the condition helps.
      rcases Nat.lt_trichotomy i b with hlt | rfl | hgt
      · obtain ⟨d, hd⟩ : ∃ d, b = i + (1 + d) := ⟨b - i - 1, by omega⟩
        rw [hd, sub_add_below]
        exact hbl.has d (by omega)
      · rw [BitVec.sub_add_cancel, HasFlags, he]
        rfl
      · obtain ⟨d, rfl⟩ : ∃ d, i = b + (1 + d) := ⟨i - b - 1, by omega⟩
        rw [sub_add_above]
        refine hcn b n hbl hn_le (fun i hi => ?_) d (by omega)
        exact runLength_holds hi

def untouchedFlags : Entry :=
  archMmuFlagsRead ||| archMmuFlagsUser ||| archMmuExtraFlagsPrivate ||| archMmuExtraFlagsNocopy

def sampleTable (untouched : List Bool) : Pagetable :=
  (untouched.zipIdx).foldl (fun pt (u, i) =>
    if u then archMmuMap pt (0x10000 + archPageSize * i) 0x5000 untouchedFlags
    else archMmuMap pt (0x10000 + archPageSize * i) 0x9000 dataFlags) (RadixTable.blank 0 3)

theorem prefault_untouched_above :
    ∃ c, x8664MmuFaultIsr (sampleTable [false, true, true, true]) 0x11008 = some c ∧
      c.numPages = 3 ∧
      Untouched (sampleTable [false, true, true, true]) 0x11008 untouchedFlags c := by
  have hen : getPage (sampleTable [false, true, true, true]) (0x11008#64).toNat =
      some (0x5000 ||| untouchedFlags) := by decide +kernel
  obtain ⟨c, hc, hif⟩ := prefault_untouched_iff hen (by decide)
  have hnm : (x8664MmuFaultIsr (sampleTable [false, true, true, true]) 0x11008).map
      FaultCall.numPages = some 3 := by decide +kernel
  refine ⟨c, hc, by simpa [hc] using hnm, hif.mpr ?_⟩
  intro b n hb _ hal i hi
  obtain rfl : 0 = b := Eq.trans (by decide +kernel) (below_unique hb)
  exact hal i hi

/-- A data page right above the fault is in the range: the loop looked at the page after it. -/
theorem data_page_prefaulted : ∃ pt entry c, getPage pt (0x11008#64).toNat = some entry ∧
      has archMmuExtraFlagsNocopy entry ∧ x8664MmuFaultIsr pt 0x11008 = some c ∧
      c.virt = 0x10008 ∧ c.numPages = 3 ∧
      getPage pt (c.virt + pages 2).toNat = some (0x9000 ||| dataFlags) ∧
      ¬ Untouched pt 0x11008 (entry &&& ~~~addrMask) c := by
  refine ⟨sampleTable [true, true, false, true], 0x5000 ||| untouchedFlags,
    ⟨0x10008, 0x5000, 7, 2, 3⟩, by decide +kernel, by decide, by decide +kernel, rfl, rfl,
    by decide +kernel, fun h => ?_⟩
  have hsm := h.sameFlags 2 (by decide)
  revert hsm
  decide +kernel

end PageFaultPrefault
