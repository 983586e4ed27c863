import SalernosKernel.ForkMemory
import SalernosKernel.TmpfsFileCalls

/-! # Mapped files

`com_mm_vmm_map` of `com/mm/vmm.c` and `com_fs_tmpfs_mmap`: the pages of a file as they are put into
an address space. The page cache knows a page by its frame number. -/
namespace FileMapping

open PageTable PageTableDuplicate List Option TmpfsFile
open ForkMemory (getLsbD_addrMask)
open PageCache (Cache comFsPagecacheGet)
open BitVec (getLsbD_and ofNat toNat_ofNat)
open RadixTable (blank)

abbrev VmmFlags := BitVec 32

def comMmVmmFlagsAnonymous : VmmFlags := 1
def comMmVmmFlagsNohint : VmmFlags := 2
def comMmVmmFlagsPhysical : VmmFlags := 4
def comMmVmmFlagsShared : VmmFlags := 32
def comMmVmmFlagsAllocate : VmmFlags := 128
def comMmVmmFlagsPrivate : VmmFlags := 256

def archMmuFlagsGlobal : Entry := 1 <<< 8
def configVmmAnonStart : ℕ := 0x100000000
def pageMask : Entry := ~~~0xfff#64
def archPhysToHhdm (phys : ℕ) : ℕ := 0xffff800000000000 + phys

def VmmFlags.has (flag flags : VmmFlags) : Bool := flag &&& flags != 0

structure Space where
  pagetable : Pagetable
  anonPages : ℕ
  mapped : List Entry
  held : List Entry

def mapFlags (vmmFlags : VmmFlags) (mmuFlags : Entry) : Entry :=
  let mmuFlags := if comMmVmmFlagsShared.has vmmFlags then mmuFlags ||| archMmuExtraFlagsShared
    else mmuFlags
  let mmuFlags := if comMmVmmFlagsAllocate.has vmmFlags then mmuFlags ||| archMmuExtraFlagsNocopy
    else mmuFlags
  if (comMmVmmFlagsPrivate.has vmmFlags ∨ comMmVmmFlagsAllocate.has vmmFlags) ∧
      has archMmuFlagsWrite mmuFlags then
    (mmuFlags &&& ~~~archMmuFlagsWrite) ||| archMmuExtraFlagsPrivate
  else mmuFlags

def mapLoop (zeroPage : Entry) (allocate : Bool) (virt : ℕ) (pagePaddr mmuFlags : Entry)
    (sizeInPages : ℕ) (s : Space) : Space :=
  (List.range sizeInPages).foldl (fun s i =>
    let paddr := if allocate then zeroPage else pagePaddr + ofNat 64 (archPageSize * i)
    { s with
      pagetable := archMmuMap s.pagetable (virt + archPageSize * i) paddr mmuFlags
      mapped := s.mapped ++ [paddr]
      held := if allocate then s.held ++ [zeroPage] else s.held }) s

/-- No result is a failed assertion. -/
def comMmVmmMap (zeroPage : Entry) (s : Space) (virt : ℕ) (phys : Entry) (len : ℕ)
    (vmmFlags : VmmFlags) (mmuFlags : Entry) : Option (ℕ × Space) :=
  let allocate := comMmVmmFlagsAllocate.has vmmFlags
  let phys := if allocate then 0 else phys
  let mmuFlags := mapFlags vmmFlags mmuFlags
  let pagePaddr := phys &&& pageMask
  let pageOff := phys.toNat % archPageSize
  let sizeInPages := pagesFor (pageOff + len)
  if comMmVmmFlagsNohint.has vmmFlags then
    if comMmVmmFlagsAnonymous.has vmmFlags then
      let virt := s.anonPages * archPageSize + configVmmAnonStart
      let s := { s with anonPages := s.anonPages + sizeInPages }
      some (virt + pageOff, mapLoop zeroPage allocate virt pagePaddr mmuFlags sizeInPages s)
    else if comMmVmmFlagsPhysical.has vmmFlags then
      let virt := archPhysToHhdm pagePaddr.toNat
      some (virt + pageOff,
        mapLoop zeroPage allocate virt pagePaddr (mmuFlags ||| archMmuFlagsGlobal) sizeInPages s)
    else none
  else
    let virt := virt / archPageSize * archPageSize
    some (virt + pageOff, mapLoop zeroPage allocate virt pagePaddr mmuFlags sizeInPages s)

/-- A regular file of the tmpfs. A page of physical memory has an address of at most 63 bits. -/
structure File where
  size : ℕ
  data : Cache
  frames : ∀ i f, comFsPagecacheGet data i = some f → f < 2 ^ 51

def File.node (file : File) (mem : ℕ → BitVec 8) : Node :=
  ⟨.file, file.size, { file.data with page := fun f k => ⟨mem (archPageSize * f + k)⟩ }⟩

/-- `com_fs_vfs_read` of a file of the tmpfs. Where `off + buflen` passes the end of the 64-bit
range it comes out below `off` and nothing is read; a read that goes into the last page of that
range does not return. -/
def comFsVfsRead (node : Node) (off buflen : ℕ) : Option Answer :=
  if node.type = .dir then some (.error .EISDIR)
  else if 2 ^ 64 ≤ off + buflen then some (.ok (some 0, []))
  else if 2 ^ 64 - archPageSize < min (off + buflen) node.size ∧
      off < min (off + buflen) node.size then none
  else some (comFsTmpfsRead node off buflen)

/-- The page that a round of `com_fs_tmpfs_mmap` holds. For an absent page it is what the stack
holds: `wild`. -/
def pagePhys (data : Cache) (wild : ℕ → Entry) (curr : ℕ) : Entry :=
  match comFsPagecacheGet data (curr / archPageSize) with
  | some f => ofNat 64 (archPageSize * f)
  | none => wild curr

def roundFlags (data : Cache) (vmmFlags : VmmFlags) (curr : ℕ) : VmmFlags :=
  vmmFlags ||| comMmVmmFlagsPrivate |||
    if (comFsPagecacheGet data (curr / archPageSize)).isSome then 0 else comMmVmmFlagsAllocate

def mmapLoop (zeroPage : Entry) (data : Cache) (wild : ℕ → Entry) (rangeBase off size : ℕ)
    (vmmFlags : VmmFlags) (mmuFlags : Entry) : ℕ → ℕ → Space → Option Space
  | 0, _, _ => none
  | fuel + 1, curr, s =>
    if curr < off + size then
      (comMmVmmMap zeroPage { s with held := s.held ++ [pagePhys data wild curr] }
        (rangeBase + (curr + 2 ^ 64 - off) % 2 ^ 64) (pagePhys data wild curr) archPageSize
        (roundFlags data vmmFlags curr) mmuFlags).bind fun r =>
          mmapLoop zeroPage data wild rangeBase off size vmmFlags mmuFlags fuel
            ((curr + archPageSize) % 2 ^ 64) r.2
    else some s

def comFsTmpfsMmap (zeroPage : Entry) (file : File) (wild : ℕ → Entry) (s : Space)
    (hint size : ℕ) (vmmFlags : VmmFlags) (mmuFlags : Entry) (off fuel : ℕ) :
    Option (ℕ × Space) :=
  if comMmVmmFlagsNohint.has vmmFlags then
    let rangeBase := s.anonPages * archPageSize + configVmmAnonStart
    let s := { s with
      anonPages := s.anonPages + pagesFor size }
    (mmapLoop zeroPage file.data wild rangeBase off size (vmmFlags &&& ~~~comMmVmmFlagsNohint)
      mmuFlags fuel off s).map fun s => (rangeBase + off % archPageSize, s)
  else
    (mmapLoop zeroPage file.data wild hint off size vmmFlags mmuFlags fuel off s).map fun s =>
      (hint + off % archPageSize, s)

def leaf (pt : Pagetable) (va : ℕ) : Entry := (getPage pt va).getD 0

def loadByte (pt : Pagetable) (mem : ℕ → BitVec 8) (va : ℕ) : Option (BitVec 8) :=
  if present (leaf pt va) then
    some (mem (physPage (leaf pt va) + va % archPageSize))
  else none

theorem leaf_archMmuMap (pt : Pagetable) (v va : ℕ) (phys flags : Entry) :
    leaf (archMmuMap pt v phys flags) va =
      if pageNo va = pageNo v then (phys &&& addrMask) ||| flags else leaf pt va := by
  rw [leaf, archMmuMap, addPage, getPage, RadixTable.getD_lookup_insert]
  exact if_congr pathOf_eq_iff rfl rfl

variable {f i stop : ℕ}

variable {mmuFlags phys : Entry}

theorem getLsbD_of_aligned (h : phys.toNat % archPageSize = 0) (hi : i < 12) :
    phys.getLsbD i = false := by
  have hbt : (phys.toNat % 2 ^ 12).testBit i = phys.toNat.testBit i := by
    rw [Nat.testBit_mod_two_pow]
    simp [hi]
  rw [BitVec.getLsbD, ← hbt, show phys.toNat % 2 ^ 12 = 0 from h, Nat.zero_testBit]

theorem getLsbD_pageMask : ∀ i < 64, pageMask.getLsbD i = decide (12 ≤ i) := by decide

theorem and_pageMask (h : phys.toNat % archPageSize = 0) : phys &&& pageMask = phys := by
  apply BitVec.eq_of_getLsbD_eq
  intro i hi
  rw [getLsbD_and, getLsbD_pageMask i hi]
  by_cases hlw : 12 ≤ i
  · simp [hlw]
  · simp [hlw, getLsbD_of_aligned h (Nat.lt_of_not_le hlw)]

def mapPage (zeroPage : Entry) (s : Space) (virt : ℕ) (phys : Entry) (vmmFlags : VmmFlags)
    (mmuFlags : Entry) : Space :=
  let allocate := comMmVmmFlagsAllocate.has vmmFlags
  let paddr := if allocate then zeroPage else phys
  { s with
    pagetable := archMmuMap s.pagetable virt paddr (mapFlags vmmFlags mmuFlags)
    mapped := s.mapped ++ [paddr]
    held := s.held ++ if allocate then [zeroPage] else [] }

variable {vmmFlags : VmmFlags}

theorem comMmVmmMap_page {virt len : ℕ}
    (zeroPage mmuFlags : Entry) (s : Space) (hhn : ¬ comMmVmmFlagsNohint.has vmmFlags)
    (hph : comMmVmmFlagsAllocate.has vmmFlags ∨ phys.toNat % archPageSize = 0)
    (hvr : virt % archPageSize = 0) (hln : 0 < len ∧ len ≤ archPageSize) :
    comMmVmmMap zeroPage s virt phys len vmmFlags mmuFlags =
      some (virt, mapPage zeroPage s virt phys vmmFlags mmuFlags) := by
  have hon : pagesFor len = 1 := by
    unfold archPageSize at hln
    unfold pagesFor archPageSize
    omega
  have hpg : virt / archPageSize * archPageSize = virt :=
    Nat.div_mul_cancel (Nat.dvd_of_mod_eq_zero hvr)
  rw [comMmVmmMap]
  simp only [hhn, hpg]
  by_cases ha : comMmVmmFlagsAllocate.has vmmFlags
  · simp [ha, hon, mapLoop, mapPage]
  · have hph := hph.resolve_left ha
    simp [ha, hph, hon, mapLoop, mapPage, and_pageMask hph]

theorem has_or (flag a b : VmmFlags) : flag.has (a ||| b) = (flag.has a || flag.has b) := by
  rw [VmmFlags.has, VmmFlags.has, VmmFlags.has, BitVec.and_or_distrib_left, Bool.eq_iff_iff]
  have hor := BitVec.or_eq_zero_iff (x := flag &&& a) (y := flag &&& b)
  simp only [bne_iff_ne, Bool.or_eq_true, ne_eq]
  exact hor.not.trans not_and_or

theorem getLsbD_mapFlags (hi : i < 64) (h : i ≠ 1 ∧ i ≠ 9 ∧ i ≠ 10 ∧ i ≠ 11) :
    (mapFlags vmmFlags mmuFlags).getLsbD i = mmuFlags.getLsbD i := by
  obtain ⟨h₁, h₉, h₁₀, h₁₁⟩ := h
  unfold mapFlags
  dsimp only
  rw [write_eq, private_eq, shared_eq, nocopy_eq]
  split_ifs <;> simp [*]

theorem mapFlags_and_addrMask
    (h : mmuFlags &&& addrMask = 0#64) : mapFlags vmmFlags mmuFlags &&& addrMask = 0#64 := by
  apply BitVec.eq_of_getLsbD_eq
  intro i hi
  have hbt := congrArg (BitVec.getLsbD · i) h
  simp only [getLsbD_and, getLsbD_addrMask i hi, BitVec.getLsbD_zero] at hbt ⊢
  by_cases hms : 12 ≤ i ∧ i < 63
  · rwa [getLsbD_mapFlags hi (by omega)]
  · simp [hms]

theorem present_mapFlags (vmmFlags : VmmFlags) (mmuFlags : Entry) :
    present (mapFlags vmmFlags mmuFlags) = has archMmuFlagsRead mmuFlags := by
  change present _ = present _
  rw [present_eq, has_twoPow 0 _ (by decide), has_twoPow 0 _ (by decide),
    getLsbD_mapFlags (by decide) (by decide)]

theorem present_entry (phys flags : Entry) :
    present ((phys &&& addrMask) ||| flags) = present flags := by
  rw [present_eq, has_twoPow 0 _ (by decide), has_twoPow 0 _ (by decide), BitVec.getLsbD_or,
    getLsbD_and, getLsbD_addrMask 0 (by decide)]
  simp

theorem physPage_entry {flags : Entry} (h : flags &&& addrMask = 0#64) :
    physPage ((phys &&& addrMask) ||| flags) = physPage phys := by
  have hms : ((phys &&& addrMask) ||| flags) &&& addrMask = phys &&& addrMask := by
    rw [BitVec.and_comm, BitVec.and_or_distrib_left, BitVec.and_comm addrMask flags, h,
      BitVec.or_zero, BitVec.and_comm addrMask, BitVec.and_assoc, BitVec.and_self]
  rw [physPage, hms, physPage]

theorem physPage_frame (h : f < 2 ^ 51) :
    physPage (ofNat 64 (archPageSize * f)) = archPageSize * f := by
  have hlt : archPageSize * f < 2 ^ 63 := by
    unfold archPageSize
    omega
  have hnt : (ofNat 64 (archPageSize * f)).toNat = archPageSize * f := by
    rw [toNat_ofNat, Nat.mod_eq_of_lt (hlt.trans (by decide))]
  have hms : ofNat 64 (archPageSize * f) &&& addrMask = ofNat 64 (archPageSize * f) := by
    apply BitVec.eq_of_getLsbD_eq
    intro i hi
    rw [getLsbD_and, getLsbD_addrMask i hi]
    by_cases hlw : i < 12
    · have hag : (ofNat 64 (archPageSize * f)).toNat % archPageSize = 0 := by
        rw [hnt]
        exact Nat.mul_mod_right _ _
      rw [getLsbD_of_aligned hag hlw, Bool.false_and]
    · by_cases hhg : i < 63
      · simp [Nat.le_of_not_lt hlw, hhg]
      · have hbt : (ofNat 64 (archPageSize * f)).getLsbD i = false := by
          rw [BitVec.getLsbD, hnt]
          exact Nat.testBit_lt_two_pow (hlt.trans_le (Nat.pow_le_pow_right (by decide) (by omega)))
        rw [hbt, Bool.false_and]
  rw [physPage, hms, hnt]

section Loop

variable {zeroPage mmuFlags : Entry} {data : Cache} {wild : ℕ → Entry} {base off size curr : ℕ}
  {vmmFlags : VmmFlags} {s : Space}

theorem nohint_roundFlags (h : ¬ comMmVmmFlagsNohint.has vmmFlags) :
    ¬ comMmVmmFlagsNohint.has (roundFlags data vmmFlags curr) := by
  have hpr : comMmVmmFlagsNohint.has comMmVmmFlagsPrivate = false := by decide
  have hzr : comMmVmmFlagsNohint.has 0#32 = false := by decide
  have hal : comMmVmmFlagsNohint.has comMmVmmFlagsAllocate = false := by decide
  rw [roundFlags, has_or, has_or, hpr]
  split_ifs
  · simpa [hzr] using h
  · simpa [hal] using h

theorem allocate_roundFlags : comMmVmmFlagsAllocate.has (roundFlags data vmmFlags curr) =
    (comMmVmmFlagsAllocate.has vmmFlags || (comFsPagecacheGet data (curr / archPageSize)).isNone) := by
  have hpr : comMmVmmFlagsAllocate.has comMmVmmFlagsPrivate = false := by decide
  have hzr : comMmVmmFlagsAllocate.has 0#32 = false := by decide
  have hal : comMmVmmFlagsAllocate.has comMmVmmFlagsAllocate = true := by decide
  rw [roundFlags, has_or, has_or, hpr]
  cases comFsPagecacheGet data (curr / archPageSize) with
  | none => simp [hal]
  | some f => simp [hzr]

variable (zeroPage mmuFlags data wild base off vmmFlags) in
def visit (s : Space) (k : ℕ) : Space :=
  mapPage zeroPage { s with held := s.held ++ [pagePhys data wild (off + archPageSize * k)] }
    (base + archPageSize * k) (pagePhys data wild (off + archPageSize * k))
    (roundFlags data vmmFlags (off + archPageSize * k)) mmuFlags

theorem mmapLoop_round {fuel k : ℕ} (hhn : ¬ comMmVmmFlagsNohint.has vmmFlags)
    (hbs : base % archPageSize = 0) (hlt : archPageSize * k < size)
    (hof : off + size < 2 ^ 64) :
    mmapLoop zeroPage data wild base off size vmmFlags mmuFlags (fuel + 1)
        (off + archPageSize * k) s =
      mmapLoop zeroPage data wild base off size vmmFlags mmuFlags fuel
        ((off + archPageSize * (k + 1)) % 2 ^ 64)
        (visit zeroPage mmuFlags data wild base off vmmFlags s k) := by
  have hcr : (off + archPageSize * k + 2 ^ 64 - off) % 2 ^ 64 = archPageSize * k := by omega
  have hph : comMmVmmFlagsAllocate.has (roundFlags data vmmFlags (off + archPageSize * k)) ∨
      (pagePhys data wild (off + archPageSize * k)).toNat % archPageSize = 0 := by
    rw [allocate_roundFlags, pagePhys]
    cases comFsPagecacheGet data ((off + archPageSize * k) / archPageSize) with
    | none => simp
    | some f =>
      right
      rw [toNat_ofNat, Nat.mod_mod_of_dvd _ (by decide)]
      exact Nat.mul_mod_right _ _
  have hvr : (base + archPageSize * k) % archPageSize = 0 := by
    rwa [Nat.add_mul_mod_self_left]
  have hnx : off + archPageSize * k + archPageSize = off + archPageSize * (k + 1) := by
    rw [Nat.mul_succ, Nat.add_assoc]
  rw [mmapLoop, if_pos (by omega), hcr, hnx,
    comMmVmmMap_page zeroPage mmuFlags _ (nohint_roundFlags hhn) hph hvr (by decide),
    bind_some, visit]

theorem lt_pagesFor (size k : ℕ) : k < pagesFor size ↔ archPageSize * k < size := by
  unfold pagesFor archPageSize
  omega

theorem mmapLoop_eq (hhn : ¬ comMmVmmFlagsNohint.has vmmFlags)
    (hbs : base % archPageSize = 0) (hfi : off + archPageSize * pagesFor size < 2 ^ 64) :
    ∀ n k fuel s, n + k = pagesFor size →
      mmapLoop zeroPage data wild base off size vmmFlags mmuFlags fuel (off + archPageSize * k) s =
        if n < fuel then
          some ((range' k n).foldl (visit zeroPage mmuFlags data wild base off vmmFlags) s)
        else none := by
  intro n
  induction n with
  | zero =>
    intro k fuel s hk
    have hed : ¬ off + archPageSize * k < off + size := by
      have := (lt_pagesFor size k).not.mp (by omega)
      omega
    cases fuel with
    | zero => rfl
    | succ fuel =>
      rw [mmapLoop, if_neg hed, if_pos (Nat.succ_pos fuel)]
      rfl
  | succ n ih =>
    intro k fuel s hk
    have hlt := (lt_pagesFor size k).mp (by omega)
    have hle : archPageSize * (k + 1) ≤ archPageSize * pagesFor size :=
      Nat.mul_le_mul_left _ (by omega)
    have hsz : size ≤ archPageSize * pagesFor size := by
      have := (lt_pagesFor size (pagesFor size)).not.mp (Nat.lt_irrefl _)
      omega
    cases fuel with
    | zero => rfl
    | succ fuel =>
      rw [mmapLoop_round hhn hbs hlt (by omega), Nat.mod_eq_of_lt (by omega),
        ih (k + 1) fuel _ (by omega), List.range'_succ, foldl_cons]
      exact if_congr Nat.succ_lt_succ_iff.symm rfl rfl

theorem mmapLoop_wraps (hsz : off + size < 2 ^ 64)
    (hwr : 2 ^ 64 ≤ off + archPageSize * pagesFor size) :
    ∀ fuel curr s, curr < 2 ^ 64 → curr % archPageSize = off % archPageSize →
      mmapLoop zeroPage data wild base off size vmmFlags mmuFlags fuel curr s = none := by
  intro fuel
  induction fuel with
  | zero =>
    intro curr s _ _
    rfl
  | succ fuel ih =>
    intro curr s hcr hmd
    have hlt : curr < off + size := by
      unfold pagesFor archPageSize at hwr
      unfold archPageSize at hmd
      omega
    rw [mmapLoop, if_pos hlt, bind_eq_none_iff]
    intro r _
    apply ih _ _ (Nat.mod_lt _ (by decide))
    unfold archPageSize at hmd ⊢
    omega

variable (zeroPage data wild off vmmFlags) in
def paddr (k : ℕ) : Entry :=
  if comMmVmmFlagsAllocate.has (roundFlags data vmmFlags (off + archPageSize * k)) then zeroPage
  else pagePhys data wild (off + archPageSize * k)

variable (zeroPage mmuFlags data wild off vmmFlags) in
def entryOf (k : ℕ) : Entry :=
  (paddr zeroPage data wild off vmmFlags k &&& addrMask) |||
    mapFlags (roundFlags data vmmFlags (off + archPageSize * k)) mmuFlags

theorem leaf_visit (s : Space) (k va : ℕ) :
    leaf (visit zeroPage mmuFlags data wild base off vmmFlags s k).pagetable va =
      if pageNo va = pageNo (base + archPageSize * k) then
        entryOf zeroPage mmuFlags data wild off vmmFlags k
      else leaf s.pagetable va :=
  leaf_archMmuMap _ _ _ _ _

variable (zeroPage mmuFlags data wild base off vmmFlags) in
def visits (s : Space) (n : ℕ) : Space :=
  (List.range n).foldl (visit zeroPage mmuFlags data wild base off vmmFlags) s

theorem visits_succ (s : Space) (n : ℕ) :
    visits zeroPage mmuFlags data wild base off vmmFlags s (n + 1) =
      visit zeroPage mmuFlags data wild base off vmmFlags
        (visits zeroPage mmuFlags data wild base off vmmFlags s n) n := by
  rw [visits, range_succ, foldl_append]
  rfl

variable (zeroPage mmuFlags data wild base off vmmFlags) in
theorem leaf_visits (s : Space) (n va : ℕ) :
    (∃ k < n, pageNo va = pageNo (base + archPageSize * k) ∧ leaf (visits zeroPage mmuFlags data
        wild base off vmmFlags s n).pagetable va = entryOf zeroPage mmuFlags data wild off vmmFlags
        k) ∨
      (∀ k < n, pageNo va ≠ pageNo (base + archPageSize * k)) ∧
        leaf (visits zeroPage mmuFlags data wild base off vmmFlags s n).pagetable va =
          leaf s.pagetable va := by
  induction n with
  | zero => exact .inr ⟨nofun, rfl⟩
  | succ n ih =>
    rw [visits_succ, leaf_visit]
    by_cases hn : pageNo va = pageNo (base + archPageSize * n)
    · exact .inl ⟨n, Nat.lt_succ_self n, hn, if_pos hn⟩
    · rw [if_neg hn]
      obtain ⟨k, hk, hrs⟩ | ⟨hnn, hlf⟩ := ih
      · exact .inl ⟨k, Nat.lt_succ_of_lt hk, hrs⟩
      · refine .inr ⟨fun k hk => ?_, hlf⟩
        obtain hk | rfl := Nat.lt_succ_iff_lt_or_eq.mp hk
        · exact hnn k hk
        · exact hn

theorem mapped_visits (s : Space) (n : ℕ) :
    (visits zeroPage mmuFlags data wild base off vmmFlags s n).mapped =
      s.mapped ++ (range n).map (paddr zeroPage data wild off vmmFlags) := by
  induction n with
  | zero => simp [visits]
  | succ n ih =>
    rw [visits_succ, range_succ, map_append, ← append_assoc, ← ih]
    rfl

theorem held_visits (s : Space) (n : ℕ) :
    (visits zeroPage mmuFlags data wild base off vmmFlags s n).held =
      s.held ++ (range n).flatMap fun k => pagePhys data wild (off + archPageSize * k) ::
        if comMmVmmFlagsAllocate.has (roundFlags data vmmFlags (off + archPageSize * k))
          then [zeroPage] else [] := by
  induction n with
  | zero => simp [visits]
  | succ n ih =>
    rw [visits_succ, range_succ, flatMap_append, ← append_assoc, ← ih]
    simp [visit, mapPage]

end Loop

section Shows

variable {zeroPage mmuFlags : Entry} {file : File} {wild : ℕ → Entry} {hint off size : ℕ}
  {vmmFlags : VmmFlags} {s : Space} {mem : ℕ → BitVec 8}

def ReadsAs (pt : Pagetable) (mem : ℕ → BitVec 8) (file : File) (va pos : ℕ) : Prop :=
  ∃ b, loadByte pt mem va = some b ∧
    comFsVfsRead (file.node mem) pos 1 = some (.ok (some 1, [⟨b⟩]))

/-- The outcome `r` of a call on an address space. The zero page apart, the calls of
`com_mm_pmm_hold` are on the pages mapped, as often as they are. -/
structure Shows (zeroPage : Entry) (mem : ℕ → BitVec 8) (file : File) (off size : ℕ)
    (r : ℕ × Space) : Prop where
  reads : ∀ i < size, ReadsAs r.2.pagetable mem file (r.1 + i) (off + i)
  held : (r.2.held.filter (· ≠ zeroPage)).Perm (r.2.mapped.filter (· ≠ zeroPage))

/-- The pages are present and asked for, away from the end of the 64-bit range, and what the rounds
do not reach was mapped before. -/
structure Mappable (file : File) (mem : ℕ → BitVec 8) (pt : Pagetable) (hint off size : ℕ)
    (vmmFlags : VmmFlags) (mmuFlags : Entry) : Prop where
  read : has archMmuFlagsRead mmuFlags
  file_pages : ¬ comMmVmmFlagsAllocate.has vmmFlags
  present : ∀ k < pagesFor size, (comFsPagecacheGet file.data (off / archPageSize + k)).isSome
  fits : off + size ≤ 2 ^ 64 - archPageSize
  covered : ∀ i < size, archPageSize * pagesFor size ≤ off % archPageSize + i →
    pagesFor size < 2 ^ 36 → ReadsAs pt mem file (hint + off % archPageSize + i) (off + i)

variable {f i j pos va : ℕ}

theorem read_one (hpos : pos < file.size) (hls : pos < 2 ^ 64 - archPageSize) :
    comFsVfsRead (file.node mem) pos 1 =
      some (.ok (some 1, [byteAt (file.node mem).data pos])) := by
  have hrd : comFsTmpfsRead (file.node mem) pos 1 =
      .ok (some 1, [byteAt (file.node mem).data pos]) :=
    TmpfsFile.read_one (by simp [File.node]) hpos
  have hsm : ¬ 2 ^ 64 ≤ pos + 1 := by
    unfold archPageSize at hls
    omega
  have hpg : ¬ (2 ^ 64 - archPageSize < min (pos + 1) (file.node mem).size ∧
      pos < min (pos + 1) (file.node mem).size) := by omega
  rw [comFsVfsRead, if_neg (by simp [File.node]), if_neg hsm, if_neg hpg, hrd]

variable {pt : Pagetable}

theorem readsAs_iff (hpos : pos < file.size) (hls : pos < 2 ^ 64 - archPageSize) :
    ReadsAs pt mem file va pos ↔ (loadByte pt mem va).map UInt8.ofBitVec =
        some (byteAt (file.node mem).data pos) := by
  rw [ReadsAs, read_one hpos hls, map_eq_some_iff]
  simp [eq_comm]

theorem byteAt_node (h : comFsPagecacheGet file.data (pos / archPageSize) = some f) :
    byteAt (file.node mem).data pos = ⟨mem (archPageSize * f + pos % archPageSize)⟩ := by
  have hget : comFsPagecacheGet (file.node mem).data (pos / archPageSize) = some f := h
  rw [byteAt, hget]
  rfl

theorem get_of_pageNo {k : ℕ} (h : pageNo (hint + archPageSize * j) = pageNo (hint + archPageSize * k)) :
    comFsPagecacheGet file.data (off / archPageSize + j) =
      comFsPagecacheGet file.data (off / archPageSize + k) := by
  have hmd : (off / archPageSize + j) % 2 ^ 36 = (off / archPageSize + k) % 2 ^ 36 := by
    unfold pageNo archPageSize at h
    omega
  rw [comFsPagecacheGet, comFsPagecacheGet, RadixTree.kradixtreeGetNolock,
    PageCache.splitIndex_three_eq_iff.mpr hmd]
  rfl

theorem place (hint off i : ℕ) (hhn : hint % archPageSize = 0) :
    pageNo (hint + off % archPageSize + i) =
        pageNo (hint + archPageSize * ((off % archPageSize + i) / archPageSize)) ∧
      (hint + off % archPageSize + i) % archPageSize = (off + i) % archPageSize ∧
      (off + i) / archPageSize = off / archPageSize + (off % archPageSize + i) / archPageSize := by
  unfold pageNo archPageSize at *
  omega

theorem page_of_round (k : ℕ) : (off + archPageSize * k) / archPageSize = off / archPageSize + k :=
  Nat.add_mul_div_left _ _ (by decide)

section Present

variable {f k : ℕ} (hget : comFsPagecacheGet file.data (off / archPageSize + k) = some f)
  (hfl : ¬ comMmVmmFlagsAllocate.has vmmFlags)
include hget

theorem pagePhys_present :
    pagePhys file.data wild (off + archPageSize * k) = ofNat 64 (archPageSize * f) := by
  rw [pagePhys, page_of_round, hget]

include hfl

theorem paddr_present (zeroPage : Entry) (wild : ℕ → Entry) :
    comMmVmmFlagsAllocate.has (roundFlags file.data vmmFlags (off + archPageSize * k)) = false ∧
      paddr zeroPage file.data wild off vmmFlags k = ofNat 64 (archPageSize * f) := by
  have hrn : comMmVmmFlagsAllocate.has
      (roundFlags file.data vmmFlags (off + archPageSize * k)) = false := by
    rw [allocate_roundFlags, page_of_round, hget]
    simpa using hfl
  rw [paddr, hrn, pagePhys_present hget]
  exact ⟨rfl, rfl⟩

theorem physPage_present (hflg : mmuFlags &&& addrMask = 0#64) :
    physPage (entryOf zeroPage mmuFlags file.data wild off vmmFlags k) = archPageSize * f := by
  rw [entryOf, physPage_entry (mapFlags_and_addrMask hflg), (paddr_present hget hfl zeroPage wild).2,
    physPage_frame (file.frames _ f hget)]

end Present

theorem present_entryOf (k : ℕ) :
    present (entryOf zeroPage mmuFlags file.data wild off vmmFlags k) =
      has archMmuFlagsRead mmuFlags := by
  rw [entryOf, present_entry, present_mapFlags]

theorem readsAs_of_entry (hhn : hint % archPageSize = 0)
    (hpos : off + i < file.size) (hls : off + i < 2 ^ 64 - archPageSize)
    (hflg : mmuFlags &&& addrMask = 0#64) (hrd : has archMmuFlagsRead mmuFlags)
    (hfl : ¬ comMmVmmFlagsAllocate.has vmmFlags)
    (hj : pageNo (hint + off % archPageSize + i) = pageNo (hint + archPageSize * j))
    (hget : comFsPagecacheGet file.data (off / archPageSize + j) = some f)
    (hlf : leaf pt (hint + off % archPageSize + i) =
      entryOf zeroPage mmuFlags file.data wild off vmmFlags j) :
    ReadsAs pt mem file (hint + off % archPageSize + i) (off + i) := by
  obtain ⟨hno, hmd, hdv⟩ := place hint off i hhn
  have hpg : comFsPagecacheGet file.data ((off + i) / archPageSize) = some f := by
    rw [hdv, ← get_of_pageNo (hj.symm.trans hno), hget]
  rw [readsAs_iff hpos hls, loadByte, hlf, present_entryOf, if_pos hrd, byteAt_node hpg,
    physPage_present hget hfl hflg, hmd]
  rfl

theorem mmap_eq (zeroPage mmuFlags : Entry) (file : File) (wild : ℕ → Entry) (s : Space) (fuel : ℕ)
    (hnh : ¬ comMmVmmFlagsNohint.has vmmFlags) (hhn : hint % archPageSize = 0)
    (hft : off + archPageSize * pagesFor size < 2 ^ 64) :
    comFsTmpfsMmap zeroPage file wild s hint size vmmFlags mmuFlags off fuel =
      if pagesFor size < fuel then some (hint + off % archPageSize,
        visits zeroPage mmuFlags file.data wild hint off vmmFlags s (pagesFor size))
      else none := by
  have hlp : mmapLoop zeroPage file.data wild hint off size vmmFlags mmuFlags fuel off s =
      if pagesFor size < fuel then
        some (visits zeroPage mmuFlags file.data wild hint off vmmFlags s (pagesFor size))
      else none := by
    have h : mmapLoop zeroPage file.data wild hint off size vmmFlags mmuFlags fuel
      (off + archPageSize * 0) s = _ := mmapLoop_eq hnh hhn hft (pagesFor size) 0 fuel s rfl
    rwa [mul_zero, add_zero off, ← range_eq_range'] at h
  rw [comFsTmpfsMmap, if_neg hnh, hlp]
  split_ifs <;> rfl

theorem readsAs_congr {pt' : Pagetable} (h : leaf pt' va = leaf pt va) :
    ReadsAs pt' mem file va pos ↔ ReadsAs pt mem file va pos := by
  rw [ReadsAs, ReadsAs, loadByte, loadByte, h]

theorem uncovered (hhn : hint % archPageSize = 0) (hi : i < size) :
    (∀ k < pagesFor size, pageNo (hint + off % archPageSize + i) ≠ pageNo (hint + archPageSize * k)) ↔
      archPageSize * pagesFor size ≤ off % archPageSize + i ∧ pagesFor size < 2 ^ 36 := by
  have hsz := (lt_pagesFor size (pagesFor size)).not.mp (Nat.lt_irrefl _)
  constructor
  · intro h
    have hpg : pagesFor size ≤ (off % archPageSize + i) / archPageSize := by
      by_contra hlt
      exact h _ (Nat.lt_of_not_le hlt) (place hint off i hhn).1
    refine ⟨(Nat.mul_comm _ _).trans_le ((Nat.le_div_iff_mul_le (by decide)).mp hpg), ?_⟩
    by_contra hle
    apply h (pagesFor size - 2 ^ 36) (by omega)
    unfold pageNo archPageSize at *
    omega
  · rintro ⟨hle, hlt⟩ k hk
    unfold pageNo archPageSize at *
    omega

theorem shows_of_mappable (hhn : hint % archPageSize = 0) (hsz : off + size ≤ file.size)
    (hflg : mmuFlags &&& addrMask = 0#64) (hs : s.mapped = [] ∧ s.held = [])
    (h : Mappable file mem s.pagetable hint off size vmmFlags mmuFlags) :
    Shows zeroPage mem file off size (hint + off % archPageSize,
      visits zeroPage mmuFlags file.data wild hint off vmmFlags s (pagesFor size)) := by
  constructor
  · intro i hi
    have hpos : off + i < file.size := by omega
    obtain ⟨k, hk, hno, hlf⟩ | ⟨hnn, hlf⟩ := leaf_visits zeroPage mmuFlags file.data wild hint
      off vmmFlags s (pagesFor size) (hint + off % archPageSize + i)
    · obtain ⟨f, hf⟩ := isSome_iff_exists.mp (h.present k hk)
      exact readsAs_of_entry hhn hpos (by have := h.fits; omega) hflg h.read h.file_pages hno hf hlf
    · obtain ⟨hed, hfw⟩ := (uncovered hhn hi).mp hnn
      exact (readsAs_congr hlf).mpr (h.covered i hi hed hfw)
  · apply List.Perm.of_eq
    congr 1
    rw [held_visits, mapped_visits, hs.1, hs.2, nil_append, nil_append, map_eq_flatMap]
    apply flatMap_congr
    intro k hk
    obtain ⟨f, hf⟩ := isSome_iff_exists.mp (h.present k (mem_range.mp hk))
    obtain ⟨hrn, hpd⟩ := paddr_present hf h.file_pages zeroPage wild
    rw [hrn, hpd, pagePhys_present hf]
    rfl

theorem paddr_cases (zeroPage : Entry) (file : File) (wild : ℕ → Entry) (off : ℕ)
    (vmmFlags : VmmFlags) (k : ℕ) : paddr zeroPage file.data wild off vmmFlags k = zeroPage ∨
    ∃ f < 2 ^ 51, paddr zeroPage file.data wild off vmmFlags k = ofNat 64 (archPageSize * f) := by
  rw [paddr, allocate_roundFlags, pagePhys]
  cases hget : comFsPagecacheGet file.data ((off + archPageSize * k) / archPageSize) with
  | none => simp
  | some f =>
    by_cases ha : comMmVmmFlagsAllocate.has vmmFlags
    · simp [ha]
    · exact .inr ⟨f, file.frames _ f hget, by simp [ha]⟩

theorem not_perm_of_mem {x : Entry} {held mapped : List Entry} (hx : x ∈ held) (hzr : x ≠ zeroPage)
    (hmpp : x ∉ mapped) :
    ¬ (held.filter (· ≠ zeroPage)).Perm (mapped.filter (· ≠ zeroPage)) := by
  intro hpm
  have hme : x ∈ held.filter (· ≠ zeroPage) := by simp [hx, hzr]
  exact hmpp (mem_filter.mp (hpm.mem_iff.mp hme)).1

theorem rounds_fit (h : off + size ≤ 2 ^ 64 - archPageSize) :
    off + archPageSize * pagesFor size < 2 ^ 64 := by
  unfold pagesFor archPageSize at *
  omega

theorem mappable_of_shows (hhn : hint % archPageSize = 0) (hpos : 1 ≤ size)
    (hlt : file.size < 2 ^ 64) (hsz : off + size ≤ file.size)
    (hs : s.mapped = [] ∧ s.held = []) (hzr : zeroPage.toNat % archPageSize = 0)
    (hfl : ∀ i f, comFsPagecacheGet file.data i = some f → ofNat 64 (archPageSize * f) ≠ zeroPage)
    (h : Shows zeroPage mem file off size (hint + off % archPageSize,
      visits zeroPage mmuFlags file.data (fun _ => 1) hint off vmmFlags s (pagesFor size))) :
    Mappable file mem s.pagetable hint off size vmmFlags mmuFlags := by
  have hhd := h.held
  rw [held_visits, mapped_visits, hs.1, hs.2, nil_append, nil_append] at hhd
  have hrn : 0 < pagesFor size := (lt_pagesFor size 0).mpr hpos
  have hps : ∀ k < pagesFor size,
      (comFsPagecacheGet file.data (off / archPageSize + k)).isSome := by
    intro k hk
    by_contra hnn
    have hwl : pagePhys file.data (fun _ => 1) (off + archPageSize * k) = 1 := by
      rw [pagePhys, page_of_round, not_isSome_iff_eq_none.mp hnn]
    refine not_perm_of_mem (x := 1) ?_ (fun hon => ?_) (fun hme => ?_) hhd
    · refine mem_flatMap.mpr ⟨k, mem_range.mpr hk, ?_⟩
      rw [hwl]
      exact .head _
    · rw [← hon] at hzr
      exact absurd hzr (by decide)
    · obtain ⟨j, -, hj⟩ := mem_map.mp hme
      have hdd : (1 : Entry).toNat % archPageSize = 0 := by
        obtain hz | ⟨f, -, hf⟩ := paddr_cases zeroPage file (fun _ => 1) off vmmFlags j
        · rw [← hj, hz]
          exact hzr
        · rw [← hj, hf, toNat_ofNat, Nat.mod_mod_of_dvd _ (by decide)]
          exact Nat.mul_mod_right _ _
      exact absurd hdd (by decide)
  have hpgs : ¬ comMmVmmFlagsAllocate.has vmmFlags := by
    intro ha
    obtain ⟨f, hf⟩ := isSome_iff_exists.mp (hps 0 hrn)
    refine not_perm_of_mem ?_ (hfl _ f hf) (fun hme => ?_) hhd
    · refine mem_flatMap.mpr ⟨0, mem_range.mpr hrn, ?_⟩
      rw [pagePhys_present hf]
      exact .head _
    · obtain ⟨j, -, hj⟩ := mem_map.mp hme
      rw [paddr, allocate_roundFlags, ha, Bool.true_or, if_pos rfl] at hj
      exact hfl _ f hf hj.symm
  refine ⟨?_, hpgs, hps, ?_, fun i hi hed hfw => ?_⟩
  · obtain ⟨b, hb, -⟩ := h.reads 0 hpos
    obtain ⟨k, -, -, hlf⟩ | ⟨hnn, -⟩ := leaf_visits zeroPage mmuFlags file.data (fun _ => 1) hint
      off vmmFlags s (pagesFor size) (hint + off % archPageSize + 0)
    · rw [loadByte, hlf, present_entryOf] at hb
      by_contra hrd
      simp [hrd] at hb
    · obtain ⟨hed, -⟩ := (uncovered hhn hpos).mp hnn
      have hlt : off % archPageSize < archPageSize := Nat.mod_lt _ (by decide)
      have hle := Nat.le_mul_of_pos_right archPageSize hrn
      omega
  · by_contra hls
    obtain ⟨b, -, hb⟩ := h.reads (size - 1) (by omega)
    have hpg : 2 ^ 64 - archPageSize < min (off + (size - 1) + 1) (file.node mem).size ∧
        off + (size - 1) < min (off + (size - 1) + 1) (file.node mem).size := by
      change _ < min _ file.size ∧ _ < min _ file.size
      omega
    rw [comFsVfsRead, if_neg (by simp [File.node]), if_neg (by omega), if_pos hpg] at hb
    simp at hb
  · obtain ⟨k, hk, hno, -⟩ | ⟨-, hlf⟩ := leaf_visits zeroPage mmuFlags file.data (fun _ => 1) hint
      off vmmFlags s (pagesFor size) (hint + off % archPageSize + i)
    · exact absurd hno ((uncovered hhn hi).mpr ⟨hed, hfw⟩ k hk)
    · exact (readsAs_congr hlf).mp (h.reads i hi)

/-- Whatever the stack holds, a private mapping shows the file exactly under these conditions. -/
theorem mmap_shows_iff (zeroPage : Entry) (hzero : zeroPage.toNat % archPageSize = 0) (file : File)
    (hlt : file.size < 2 ^ 64) (hfile : ∀ i f, comFsPagecacheGet file.data i = some f →
      ofNat 64 (archPageSize * f) ≠ zeroPage)
    (mem : ℕ → BitVec 8) (pt : Pagetable) (anonPages hint off size : ℕ) (hpos : 1 ≤ size)
    (hhint : hint % archPageSize = 0) (hsize : off + size ≤ file.size) (vmmFlags : VmmFlags)
    (hnohint : ¬ comMmVmmFlagsNohint.has vmmFlags) (mmuFlags : Entry)
    (hflags : mmuFlags &&& addrMask = 0#64) :
    (∀ wild, ∃ fuel r, comFsTmpfsMmap zeroPage file wild ⟨pt, anonPages, [], []⟩ hint size vmmFlags
        mmuFlags off fuel = some r ∧ Shows zeroPage mem file off size r) ↔
      Mappable file mem pt hint off size vmmFlags mmuFlags := by
  constructor
  · intro h
    obtain ⟨fuel, r, hr, hsh⟩ := h fun _ => 1
    have hft : off + archPageSize * pagesFor size < 2 ^ 64 := by
      by_contra hwr
      rw [comFsTmpfsMmap, if_neg hnohint,
        mmapLoop_wraps (by omega) (Nat.le_of_not_lt hwr) fuel off _ (by omega) rfl] at hr
      simp at hr
    rw [mmap_eq zeroPage mmuFlags file _ _ fuel hnohint hhint hft] at hr
    split_ifs at hr
    exact mappable_of_shows hhint hpos hlt hsize ⟨rfl, rfl⟩ hzero hfile
      (some.inj hr ▸ hsh)
  · intro h wild
    have hcl := mmap_eq zeroPage mmuFlags file wild ⟨pt, anonPages, [], []⟩ (pagesFor size + 1)
      hnohint hhint (rounds_fit h.fits)
    rw [if_pos (Nat.lt_succ_self _)] at hcl
    exact ⟨_, _, hcl, shows_of_mappable hhint hsize hflags ⟨rfl, rfl⟩ h⟩

end Shows

def samplePages : Cache :=
  ([0, 1].foldlM (fun c i => (PageCache.comFsPagecacheDefault c i).map Prod.snd)
    PageCache.comFsPagecacheNew).getD PageCache.comFsPagecacheNew

theorem samplePages_frame (h : comFsPagecacheGet samplePages i = some f) : f < 2 := by
  have hnx : samplePages.nextPage = 2 := by decide +kernel
  exact hnx ▸ samplePages.allocated i f h

def sampleFile : File where
  size := 8192
  data := samplePages
  frames _ _ h := (samplePages_frame h).trans (by decide)

theorem sampleFile_ne_zeroPage (h : comFsPagecacheGet sampleFile.data i = some f) :
    ofNat 64 (archPageSize * f) ≠ 0x5000#64 := by
  have hf := samplePages_frame h
  obtain rfl | rfl : f = 0 ∨ f = 1 := by omega
  all_goals decide

theorem mmap_shows_page : Mappable sampleFile (fun a => ofNat 8 a) (blank 0 3) 0x10000
      0 4096 comMmVmmFlagsPrivate dataFlags ∧
    ∀ wild, ∃ fuel r, comFsTmpfsMmap 0x5000 sampleFile wild ⟨blank 0 3, 0, [], []⟩ 0x10000
      4096 comMmVmmFlagsPrivate dataFlags 0 fuel = some r ∧
        Shows 0x5000 (fun a => ofNat 8 a) sampleFile 0 4096 r := by
  have hfl : ∀ i f, comFsPagecacheGet sampleFile.data i = some f →
      ofNat 64 (archPageSize * f) ≠ 0x5000 := fun _ _ h => sampleFile_ne_zeroPage h
  have hmp : Mappable sampleFile (fun a => ofNat 8 a) (blank 0 3) 0x10000 0
      4096 comMmVmmFlagsPrivate dataFlags := by
    refine ⟨by decide, by decide, fun k hk => ?_, by decide, fun i hi hed => ?_⟩
    · obtain rfl : k = 0 := by
        have : pagesFor 4096 = 1 := by decide
        omega
      decide +kernel
    · have : pagesFor 4096 = 1 := by decide
      simp only [this, archPageSize] at hed
      omega
  exact ⟨hmp, (mmap_shows_iff 0x5000 (by decide) sampleFile (by decide) hfl _ _ 0 _ 0 4096
    (by decide) (by decide) (by decide) _ (by decide) _ (by decide)).mpr hmp⟩

/-- Two bytes from the end of the first page on: the second one is not mapped. -/
theorem mmap_misses_page : ∃ r, comFsTmpfsMmap 0x5000 sampleFile (fun _ => 0)
    ⟨blank 0 3, 0, [], []⟩ 0x10000 2 comMmVmmFlagsPrivate dataFlags 4095 2 = some r ∧
      loadByte r.2.pagetable (fun a => ofNat 8 a) (r.1 + 1) = none ∧
        ¬ Shows 0x5000 (fun a => ofNat 8 a) sampleFile 4095 2 r := by
  have hcl : comFsTmpfsMmap 0x5000 sampleFile (fun _ => 0) ⟨blank 0 3, 0, [], []⟩ 0x10000
      2 comMmVmmFlagsPrivate dataFlags 4095 2 = _ :=
    mmap_eq 0x5000 dataFlags sampleFile _ _ 2 (by decide) (by decide) (by decide)
  refine ⟨_, hcl, ?_⟩
  have hld : loadByte (visits 0x5000 dataFlags sampleFile.data (fun _ => 0) 0x10000 4095
      comMmVmmFlagsPrivate ⟨blank 0 3, 0, [], []⟩ (pagesFor 2)).pagetable
      (fun a => ofNat 8 a) (0x10000 + 4095 % archPageSize + 1) = none := by
    obtain ⟨k, hk, hno, -⟩ | ⟨-, hlf⟩ := leaf_visits 0x5000 dataFlags sampleFile.data (fun _ => 0)
      0x10000 4095 comMmVmmFlagsPrivate ⟨blank 0 3, 0, [], []⟩ (pagesFor 2)
      (0x10000 + 4095 % archPageSize + 1)
    · exact absurd hno ((uncovered (by decide) (by decide)).mpr (by decide) k hk)
    · rfl
  refine ⟨hld, fun hsh => ?_⟩
  obtain ⟨b, hb, -⟩ := hsh.reads 1 (by decide)
  rw [hld] at hb
  simp at hb

end FileMapping
