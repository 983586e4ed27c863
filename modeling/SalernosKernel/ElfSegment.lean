import SalernosKernel.FileMapping

/-! # Program segments

`load` of `com/sys/elf.c` for a file of the tmpfs: the head of the segment is read into a page of
its own, the file is mapped behind it, the rest of the last page is cleared and the remaining memory
is mapped to the zero page. -/
namespace ElfSegment

open PageTable PageTableDuplicate FileMapping List Option
open ForkMemory (System takeFree)
open PhysicalMemory (PageMetaArray comMmPmmHold)
open PageCache (comFsPagecacheGet)
open BitVec (ofNat toNat_add toNat_ofNat)

structure Phdr where
  type : BitVec 32
  off : BitVec 64
  virtAddr : BitVec 64
  fileSz : BitVec 64
  memSz : BitVec 64
  deriving DecidableEq

def bytesOf : TmpfsFile.Answer → List UInt8
  | .ok r => r.2
  | .error _ => []

def storeBytes (mem : ℕ → BitVec 8) (addr : ℕ) (bytes : List UInt8) : ℕ → BitVec 8 := fun a =>
  if addr ≤ a then (bytes[a - addr]?.map UInt8.toBitVec).getD (mem a) else mem a

def kmemset (mem : ℕ → BitVec 8) (addr n : ℕ) : ℕ → BitVec 8 := fun a =>
  if addr ≤ a ∧ a < addr + n then 0 else mem a

def archMmuGetPhysical (pt : Pagetable) (virt : ℕ) : ℕ :=
  if leaf pt virt &&& addrMask = 0 then 0 else physPage (leaf pt virt) + virt % archPageSize

structure Segment where
  mem : ℕ → BitVec 8
  space : Space
  vaddr : BitVec 64
  idx : BitVec 64
  fsz : BitVec 64
  memSz : BitVec 64
  vaddrMapped : Bool

section Load

variable (zeroPage newPhys : Entry) (file : File) (wild : ℕ → Entry) (phdr : Phdr) (fuel : ℕ)

def loadHead (g : Segment) : Option Segment :=
  let misalign := g.vaddr.toNat % archPageSize
  if misalign ≠ 0 ∧ 0 < g.fsz.toInt then
    let mappingLen := min (archPageSize - misalign) g.fsz.toNat
    (comMmVmmMap zeroPage g.space (g.vaddr.toNat - misalign) newPhys mappingLen 0 dataFlags).bind
      fun r => (comFsVfsRead (file.node g.mem) phdr.off.toNat mappingLen).map fun answer =>
        { mem := storeBytes g.mem (newPhys.toNat + misalign) (bytesOf answer)
          space := r.2
          vaddr := g.vaddr + ofNat 64 mappingLen
          idx := g.idx + ofNat 64 mappingLen
          fsz := g.fsz - ofNat 64 mappingLen
          memSz := g.memSz - ofNat 64 mappingLen
          vaddrMapped := true }
  else some g

def loadFile (g : Segment) : Option Segment :=
  if 0 < g.fsz.toInt then
    (comFsTmpfsMmap zeroPage file wild g.space g.vaddr.toNat g.fsz.toNat comMmVmmFlagsPrivate
      dataFlags (phdr.off + g.idx).toNat fuel).map fun r =>
        { g with
          space := r.2
          vaddr := g.vaddr + g.fsz
          memSz := g.memSz - g.fsz
          vaddrMapped := true }
  else some g

def zeroFill (g : Segment) : Segment :=
  let misalign := g.vaddr.toNat % archPageSize
  if misalign ≠ 0 ∧ 0 < g.memSz.toInt then
    if g.vaddrMapped then
      let zeroSize := min g.memSz.toNat (archPageSize - misalign)
      { g with
        mem := kmemset g.mem (archMmuGetPhysical g.space.pagetable g.vaddr.toNat) zeroSize
        vaddr := g.vaddr + ofNat 64 zeroSize
        memSz := g.memSz - ofNat 64 zeroSize }
    else
      { g with
        vaddr := g.vaddr - ofNat 64 misalign
        memSz := g.memSz + ofNat 64 misalign }
  else g

def loadRest (g : Segment) : Option Segment :=
  if 0 < g.memSz.toInt then
    (comMmVmmMap zeroPage g.space g.vaddr.toNat 0 g.memSz.toNat comMmVmmFlagsAllocate
      dataFlags).map fun r => { g with space := r.2 }
  else some g

def loadSegment (g : Segment) : Option Segment :=
  ((loadHead zeroPage newPhys file phdr g).bind (loadFile zeroPage file wild phdr fuel)).bind
    fun g => loadRest zeroPage (zeroFill g)

def NeedsHead (vaddr : BitVec 64) : Prop :=
  vaddr.toNat % archPageSize ≠ 0 ∧ 0 < phdr.fileSz.toInt
  deriving Decidable

def enter (mem : ℕ → BitVec 8) (pt : Pagetable) (vaddr : BitVec 64) : Segment :=
  ⟨mem, ⟨pt, 0, [], []⟩, vaddr, 0, phdr.fileSz, phdr.memSz, false⟩

def takeHead (a : PageMetaArray) (vaddr : BitVec 64) : Option PageMetaArray :=
  if NeedsHead phdr vaddr then takeFree a newPhys.toNat else some a

/-- The call on the address space with number `t`. No result is a failed assertion, or a call that
has not returned. -/
def load (s : System) (t : ℕ) (vaddr : BitVec 64) : Option System := do
  let pt ← s.tables[t]?
  let a ← takeHead newPhys phdr s.pageMeta vaddr
  let g ← loadSegment zeroPage newPhys file wild phdr fuel (enter phdr s.mem pt vaddr)
  let a ← g.space.held.foldlM (fun a page => comMmPmmHold a page.toNat) a
  some ⟨a, g.mem, s.tables.set t g.space.pagetable⟩

end Load

theorem pageNo_of_lt {a : ℕ} (h : a < 2 ^ 48) : pageNo a = a / archPageSize := by
  unfold pageNo archPageSize
  omega

variable {f i page virt : ℕ}

theorem leaf_mapLoop (zeroPage pagePaddr flags : Entry) (s : Space) {a : ℕ} (n : ℕ)
    (hvr : virt % archPageSize = 0) (hed : virt + archPageSize * n ≤ 2 ^ 48) (ha : a < 2 ^ 48) :
    leaf (mapLoop zeroPage true virt pagePaddr flags n s).pagetable a =
      if virt ≤ a ∧ a < virt + archPageSize * n then (zeroPage &&& addrMask) ||| flags
      else leaf s.pagetable a := by
  induction n with
  | zero =>
    have hnn : ¬ (virt ≤ a ∧ a < virt + archPageSize * 0) := by omega
    rw [if_neg hnn]
    rfl
  | succ n ih =>
    have hsc : (mapLoop zeroPage true virt pagePaddr flags (n + 1) s).pagetable =
        archMmuMap (mapLoop zeroPage true virt pagePaddr flags n s).pagetable
          (virt + archPageSize * n) zeroPage flags := by
      rw [mapLoop, range_succ, foldl_append]
      rfl
    rw [Nat.mul_succ] at hed ⊢
    have hls : virt + archPageSize * n < 2 ^ 48 := by
      have : 0 < archPageSize := by decide
      omega
    rw [hsc, leaf_archMmuMap, ih (by omega), pageNo_of_lt ha, pageNo_of_lt hls]
    have hpg : a / archPageSize = (virt + archPageSize * n) / archPageSize ↔
        virt + archPageSize * n ≤ a ∧ a < virt + archPageSize * n + archPageSize := by
      unfold archPageSize at hvr ⊢
      omega
    grind

theorem held_mapLoop {zeroPage pagePaddr flags p : Entry} {s : Space} (n : ℕ)
    (hp : p ∈ (mapLoop zeroPage true virt pagePaddr flags n s).held) : p ∈ s.held ∨ p = zeroPage := by
  induction n with
  | zero => exact .inl hp
  | succ n ih =>
    have hsc : (mapLoop zeroPage true virt pagePaddr flags (n + 1) s).held =
        (mapLoop zeroPage true virt pagePaddr flags n s).held ++ [zeroPage] := by
      rw [mapLoop, range_succ, foldl_append]
      rfl
    rw [hsc, mem_append, mem_singleton] at hp
    exact hp.elim ih .inr

theorem pos_toInt {x : BitVec 64} (h : x.toNat < 2 ^ 63) : 0 < x.toInt ↔ 0 < x.toNat := by
  rw [BitVec.toInt_eq_toNat_of_lt (by omega)]
  exact Int.natCast_pos

section Image

variable {zeroPage newPhys : Entry} {file : File} {wild : ℕ → Entry} {phdr : Phdr}
  {mem : ℕ → BitVec 8} {pt : Pagetable} {vaddr : BitVec 64}

structure Loadable (file : File) (phdr : Phdr) (vaddr : BitVec 64) : Prop where
  congruent : phdr.off.toNat % archPageSize = vaddr.toNat % archPageSize
  le : phdr.fileSz.toNat ≤ phdr.memSz.toNat
  memSz : phdr.memSz.toNat < 2 ^ 47
  file_size : file.size < 2 ^ 64
  inFile : phdr.off.toNat + phdr.fileSz.toNat ≤ file.size
  inSpace : vaddr.toNat + phdr.memSz.toNat ≤ 2 ^ 47
  present : ∀ i < phdr.fileSz.toNat,
    (comFsPagecacheGet file.data ((phdr.off.toNat + i) / archPageSize)).isSome

def want (file : File) (phdr : Phdr) (mem : ℕ → BitVec 8) (i : ℕ) : BitVec 8 :=
  if i < phdr.fileSz.toNat then
    (TmpfsFile.byteAt (file.node mem).data (phdr.off.toNat + i)).toBitVec
  else 0

structure Frames (zeroPage newPhys : Entry) (file : File) (mem : ℕ → BitVec 8) : Prop where
  zero_aligned : zeroPage.toNat % archPageSize = 0
  zero_lt : zeroPage.toNat < 2 ^ 63
  zero_content : ∀ k < archPageSize, mem (zeroPage.toNat + k) = 0
  file_pos : ∀ i f, comFsPagecacheGet file.data i = some f → 0 < f
  file_ne_zero : ∀ i f, comFsPagecacheGet file.data i = some f → archPageSize * f ≠ zeroPage.toNat
  new_aligned : newPhys.toNat % archPageSize = 0
  new_lt : newPhys.toNat < 2 ^ 63
  new_pos : 0 < newPhys.toNat
  new_ne_zero : newPhys.toNat ≠ zeroPage.toNat
  new_ne_file : ∀ i f, comFsPagecacheGet file.data i = some f → newPhys.toNat ≠ archPageSize * f

def headLen (phdr : Phdr) (vaddr : BitVec 64) : ℕ :=
  if vaddr.toNat % archPageSize = 0 then 0
  else min (archPageSize - vaddr.toNat % archPageSize) phdr.fileSz.toNat

theorem physPage_of_aligned {p : Entry} (h : p.toNat % archPageSize = 0) (hlt : p.toNat < 2 ^ 63) :
    physPage p = p.toNat := by
  have hp : p = ofNat 64 (archPageSize * (p.toNat / archPageSize)) := by
    rw [Nat.mul_div_cancel' (Nat.dvd_of_mod_eq_zero h), BitVec.ofNat_toNat]
    simp
  have hfm : p.toNat / archPageSize < 2 ^ 51 := by
    unfold archPageSize
    omega
  rw [hp, physPage_frame hfm, ← hp, Nat.mul_div_cancel' (Nat.dvd_of_mod_eq_zero h)]

def Placed (pt : Pagetable) (va p : ℕ) : Prop :=
  ∃ phys vmmFlags, leaf pt va = (phys &&& addrMask) ||| mapFlags vmmFlags dataFlags ∧
    physPage phys = p

section Placed

variable {va va' p : ℕ}

theorem physPage_mapFlags (phys : Entry) (vmmFlags : VmmFlags) :
    physPage ((phys &&& addrMask) ||| mapFlags vmmFlags dataFlags) = physPage phys :=
  physPage_entry (mapFlags_and_addrMask (by decide))

theorem Placed.loadByte_eq (h : Placed pt va p) (mem : ℕ → BitVec 8) :
    loadByte pt mem va = some (mem (p + va % archPageSize)) := by
  obtain ⟨phys, vmmFlags, hlf, rfl⟩ := h
  rw [loadByte, hlf, present_entry, present_mapFlags, if_pos (by decide), physPage_mapFlags]

theorem Placed.getPhysical (h : Placed pt va p) (hp : 0 < p) :
    archMmuGetPhysical pt va = p + va % archPageSize := by
  obtain ⟨phys, vmmFlags, hlf, rfl⟩ := h
  have hpg : physPage (leaf pt va) = physPage phys := by rw [hlf, physPage_mapFlags]
  rw [archMmuGetPhysical, if_neg, hpg]
  intro hz
  rw [← hpg, physPage, hz] at hp
  exact absurd hp (by decide)

theorem Placed.same_page (h : Placed pt va p) (hpg : va' / archPageSize = va / archPageSize) :
    Placed pt va' p := by
  have hno : pageNo va' = pageNo va := by
    unfold pageNo archPageSize at *
    omega
  have hlf : leaf pt va' = leaf pt va := by rw [leaf, getPage, pathOf_eq_iff.mpr hno, leaf, getPage]
  rwa [Placed, hlf]

end Placed

theorem headLen_le (phdr : Phdr) (vaddr : BitVec 64) : headLen phdr vaddr ≤ phdr.fileSz.toNat := by
  unfold headLen
  split_ifs <;> omega

theorem headLen_pos (h : 0 < headLen phdr vaddr) : vaddr.toNat % archPageSize ≠ 0 ∧
    vaddr.toNat % archPageSize + headLen phdr vaddr ≤ archPageSize := by
  unfold headLen at h ⊢
  split_ifs at h ⊢ with hv
  · omega
  · omega

theorem headLen_end (phdr : Phdr) (vaddr : BitVec 64) :
    (vaddr.toNat + headLen phdr vaddr) % archPageSize = 0 ∨
      headLen phdr vaddr = phdr.fileSz.toNat := by
  unfold headLen archPageSize
  split_ifs <;> omega

def home (newPhys : Entry) (file : File) (phdr : Phdr) (vaddr : BitVec 64) (i : ℕ) : ℕ :=
  if i < headLen phdr vaddr then newPhys.toNat
  else archPageSize * (comFsPagecacheGet file.data ((phdr.off.toNat + i) / archPageSize)).getD 0

section Home

variable {i j : ℕ}

theorem home_file {f : ℕ} (hi : ¬ i < headLen phdr vaddr)
    (h : comFsPagecacheGet file.data ((phdr.off.toNat + i) / archPageSize) = some f) :
    home newPhys file phdr vaddr i = archPageSize * f := by
  rw [home, if_neg hi, h]
  rfl

variable (hl : Loadable file phdr vaddr) (hf : Frames zeroPage newPhys file mem)
include hl hf

theorem home_page (hi : i < phdr.fileSz.toNat) :
    home newPhys file phdr vaddr i % archPageSize = 0 ∧ 0 < home newPhys file phdr vaddr i ∧
      home newPhys file phdr vaddr i ≠ zeroPage.toNat := by
  by_cases hhd : i < headLen phdr vaddr
  · rw [home, if_pos hhd]
    exact ⟨hf.new_aligned, hf.new_pos, hf.new_ne_zero⟩
  · obtain ⟨f, hget⟩ := isSome_iff_exists.mp (hl.present i hi)
    rw [home_file hhd hget]
    exact ⟨Nat.mul_mod_right _ _, Nat.mul_pos (by decide) (hf.file_pos _ f hget),
      hf.file_ne_zero _ f hget⟩

theorem page_of_home (hi : i < phdr.fileSz.toNat) (hj : j < phdr.fileSz.toNat)
    (h : home newPhys file phdr vaddr i = home newPhys file phdr vaddr j) :
    (vaddr.toNat + i) / archPageSize = (vaddr.toNat + j) / archPageSize := by
  obtain ⟨f, hgt⟩ := isSome_iff_exists.mp (hl.present i hi)
  obtain ⟨f', hgt'⟩ := isSome_iff_exists.mp (hl.present j hj)
  by_cases hi' : i < headLen phdr vaddr
  · by_cases hj' : j < headLen phdr vaddr
    · have hhd := (headLen_pos (Nat.zero_lt_of_lt hi')).2
      unfold archPageSize at *
      omega
    · rw [home, if_pos hi', home_file hj' hgt'] at h
      exact absurd h (hf.new_ne_file _ f' hgt')
  · by_cases hj' : j < headLen phdr vaddr
    · rw [home_file hi' hgt, home, if_pos hj'] at h
      exact absurd h.symm (hf.new_ne_file _ f hgt)
    · rw [home_file hi' hgt, home_file hj' hgt'] at h
      obtain rfl : f = f' := Nat.eq_of_mul_eq_mul_left (by decide) h
      have hsl := PageCache.splitIndex_three_eq_iff.mp (file.data.exclusive _ _ f hgt hgt')
      have hcn := hl.congruent
      have hle := hl.le
      have hlt := hl.memSz
      unfold archPageSize at *
      omega

end Home

variable {x : BitVec 64} {a addr i n off : ℕ}

theorem toNat_add_ofNat (h : x.toNat + n < 2 ^ 64) : (x + ofNat 64 n).toNat = x.toNat + n := by
  rw [toNat_add, toNat_ofNat, Nat.add_mod_mod, Nat.mod_eq_of_lt h]

theorem toNat_sub_ofNat (h : n ≤ x.toNat) : (x - ofNat 64 n).toNat = x.toNat - n := by
  rw [BitVec.toNat_sub, toNat_ofNat, Nat.mod_eq_of_lt (by omega : n < 2 ^ 64)]
  omega

variable {bytes : List UInt8}

theorem storeBytes_inside (hi : i < bytes.length) :
    storeBytes mem addr bytes (addr + i) = bytes[i].toBitVec := by
  rw [storeBytes, if_pos (Nat.le_add_right _ _), Nat.add_sub_cancel_left,
    List.getElem?_eq_getElem hi]
  rfl

theorem storeBytes_outside
    (h : a < addr ∨ addr + bytes.length ≤ a) : storeBytes mem addr bytes a = mem a := by
  rw [storeBytes]
  split_ifs with hle
  · rw [List.getElem?_eq_none (by omega)]
    rfl
  · rfl

theorem read_range (hin : off + n ≤ file.size) (hls : off + n ≤ 2 ^ 64 - archPageSize) :
    comFsVfsRead (file.node mem) off n =
      some (.ok (some n, (range' off n).map (TmpfsFile.byteAt (file.node mem).data))) := by
  have hps : 0 < archPageSize := by decide
  have hmn : min n ((file.node mem).size - off) = n := by
    change min n (file.size - off) = n
    omega
  rw [comFsVfsRead, if_neg (by simp [File.node]), if_neg (by omega), if_neg (by omega),
    TmpfsFile.read_eq (by simp [File.node]), hmn]

theorem read_last (hps : 0 < n) (hin : off + n ≤ file.size) (hsz : file.size < 2 ^ 64)
    (hls : 2 ^ 64 - archPageSize < off + n) : comFsVfsRead (file.node mem) off n = none := by
  have hpg : 2 ^ 64 - archPageSize < min (off + n) (file.node mem).size ∧
      off < min (off + n) (file.node mem).size := by
    change _ < min _ file.size ∧ _ < min _ file.size
    omega
  rw [comFsVfsRead, if_neg (by simp [File.node]), if_neg (by omega), if_pos hpg]

def afterHead (zeroPage newPhys : Entry) (phdr : Phdr) (mem : ℕ → BitVec 8) (pt : Pagetable)
    (vaddr : BitVec 64) (answer : TmpfsFile.Answer) : Segment where
  mem := storeBytes mem (newPhys.toNat + vaddr.toNat % archPageSize) (bytesOf answer)
  space := mapPage zeroPage ⟨pt, 0, [], []⟩ (vaddr.toNat - vaddr.toNat % archPageSize) newPhys 0
    dataFlags
  vaddr := vaddr + ofNat 64 (headLen phdr vaddr)
  idx := 0 + ofNat 64 (headLen phdr vaddr)
  fsz := phdr.fileSz - ofNat 64 (headLen phdr vaddr)
  memSz := phdr.memSz - ofNat 64 (headLen phdr vaddr)
  vaddrMapped := true

theorem afterHead_outside {answer : TmpfsFile.Answer}
    (hln : vaddr.toNat % archPageSize + (bytesOf answer).length ≤ archPageSize)
    (ha : a < newPhys.toNat ∨ newPhys.toNat + archPageSize ≤ a) :
    (afterHead zeroPage newPhys phdr mem pt vaddr answer).mem a = mem a :=
  storeBytes_outside (by omega)

/-- The first `upto` bytes are mapped and the file is in memory. -/
structure Carried (zeroPage newPhys : Entry) (file : File) (phdr : Phdr) (mem : ℕ → BitVec 8)
    (vaddr : BitVec 64) (upto : ℕ) (g : Segment) : Prop where
  start : g.vaddr.toNat = vaddr.toNat + upto
  memSz : g.memSz.toNat = phdr.memSz.toNat - upto
  mapped : g.vaddrMapped = decide (0 < upto)
  placed : ∀ i < upto, Placed g.space.pagetable (vaddr.toNat + i) (home newPhys file phdr vaddr i)
  bytes : ∀ i < phdr.fileSz.toNat, g.mem (home newPhys file phdr vaddr i +
    (vaddr.toNat + i) % archPageSize) = want file phdr mem i
  zero : ∀ k < archPageSize, g.mem (zeroPage.toNat + k) = 0

structure Headed (zeroPage newPhys : Entry) (file : File) (phdr : Phdr) (mem : ℕ → BitVec 8)
    (vaddr : BitVec 64) (g : Segment) : Prop extends
    Carried zeroPage newPhys file phdr mem vaddr (headLen phdr vaddr) g where
  idx : g.idx.toNat = headLen phdr vaddr
  fsz : g.fsz.toNat = phdr.fileSz.toNat - headLen phdr vaddr
  held : g.space.held = []

theorem loadHead_eq (hnd : NeedsHead phdr vaddr) (h : 0 < headLen phdr vaddr)
    (hnew : newPhys.toNat % archPageSize = 0) :
    loadHead zeroPage newPhys file phdr (enter phdr mem pt vaddr) =
      (comFsVfsRead (file.node mem) phdr.off.toNat (headLen phdr vaddr)).map
        (afterHead zeroPage newPhys phdr mem pt vaddr) := by
  obtain ⟨hv, hed⟩ := headLen_pos h
  have hln : min (archPageSize - vaddr.toNat % archPageSize) phdr.fileSz.toNat =
      headLen phdr vaddr := by rw [headLen, if_neg hv]
  have hvr : (vaddr.toNat - vaddr.toNat % archPageSize) % archPageSize = 0 := by
    unfold archPageSize
    omega
  have hmp := comMmVmmMap_page zeroPage dataFlags ⟨pt, 0, [], []⟩
    (by decide : ¬ comMmVmmFlagsNohint.has 0) (.inr hnew) hvr
    (⟨h, by omega⟩ : 0 < headLen phdr vaddr ∧ headLen phdr vaddr ≤ archPageSize)
  refine (if_pos hnd).trans ?_
  dsimp only [enter]
  rw [hln, hmp]
  rfl

section Head

variable (hl : Loadable file phdr vaddr) (hf : Frames zeroPage newPhys file mem)
include hl

theorem needsHead_iff : NeedsHead phdr vaddr ↔ 0 < headLen phdr vaddr := by
  have hlt : vaddr.toNat % archPageSize < archPageSize := Nat.mod_lt _ (by decide)
  rw [NeedsHead, pos_toInt (by have := hl.le; have := hl.memSz; omega), headLen]
  split_ifs <;> omega

theorem file_byte {i : ℕ} (hhd : ¬ i < headLen phdr vaddr) (hi : i < phdr.fileSz.toNat) :
    mem (home newPhys file phdr vaddr i + (vaddr.toNat + i) % archPageSize) =
      want file phdr mem i := by
  obtain ⟨f, hget⟩ := isSome_iff_exists.mp (hl.present i hi)
  have hmd : (vaddr.toNat + i) % archPageSize = (phdr.off.toNat + i) % archPageSize := by
    have := hl.congruent
    unfold archPageSize at *
    omega
  rw [home_file hhd hget, want, if_pos hi, byteAt_node hget, hmd]

theorem loadHead_absent (pt : Pagetable) (hf : Frames zeroPage newPhys file mem)
    (h : headLen phdr vaddr = 0) :
    loadHead zeroPage newPhys file phdr (enter phdr mem pt vaddr) = some (enter phdr mem pt vaddr) ∧
      Headed zeroPage newPhys file phdr mem vaddr (enter phdr mem pt vaddr) := by
  constructor
  · have hnn : ¬ NeedsHead phdr vaddr := by
      rw [needsHead_iff hl]
      omega
    exact if_neg hnn
  · refine ⟨⟨?_, ?_, ?_, fun i hi => ?_, fun i hi => file_byte hl (by omega) hi,
      hf.zero_content⟩, ?_, ?_, rfl⟩
    any_goals simp [enter, h]
    omega

include hf

theorem loadHead_present (pt : Pagetable) (h : 0 < headLen phdr vaddr)
    (hls : phdr.off.toNat + headLen phdr vaddr ≤ 2 ^ 64 - archPageSize) :
    ∃ g, loadHead zeroPage newPhys file phdr (enter phdr mem pt vaddr) = some g ∧
      Headed zeroPage newPhys file phdr mem vaddr g := by
  obtain ⟨hv, hed⟩ := headLen_pos h
  have hle := headLen_le phdr vaddr
  have hme := hl.le
  have hsp := hl.inSpace
  refine ⟨_, by rw [loadHead_eq ((needsHead_iff hl).mpr h) h hf.new_aligned, read_range
    (hl.inFile.trans' (Nat.add_le_add_left hle _)) hls, map_some], ?_⟩
  have hz := hf.zero_aligned
  have hnew := hf.new_aligned
  have hln : vaddr.toNat % archPageSize + (bytesOf (.ok (some (headLen phdr vaddr),
      (range' phdr.off.toNat (headLen phdr vaddr)).map
        (TmpfsFile.byteAt (file.node mem).data)))).length ≤ archPageSize := by
    simpa [bytesOf] using hed
  refine ⟨⟨toNat_add_ofNat (by omega), toNat_sub_ofNat (by omega), (decide_eq_true h).symm,
    fun i hi => ?_, fun i hi => ?_, fun k hk => ?_⟩,
    (toNat_add_ofNat (by simp; omega)).trans (Nat.zero_add _), toNat_sub_ofNat hle, rfl⟩
  · refine ⟨newPhys, 0, ?_, ?_⟩
    · refine (leaf_archMmuMap _ _ _ _ _).trans (if_pos ?_)
      unfold pageNo archPageSize at *
      omega
    · rw [home, if_pos hi, physPage_of_aligned hf.new_aligned hf.new_lt]
  · by_cases hhd : i < headLen phdr vaddr
    · have hpc : newPhys.toNat + (vaddr.toNat + i) % archPageSize =
          newPhys.toNat + vaddr.toNat % archPageSize + i := by
        unfold archPageSize at *
        omega
      rw [home, if_pos hhd, hpc, want, if_pos hi]
      refine (storeBytes_inside (by simpa [bytesOf] using hhd)).trans ?_
      simp [bytesOf]
    · rw [← file_byte hl hhd hi]
      apply afterHead_outside hln
      obtain ⟨f, hget⟩ := isSome_iff_exists.mp (hl.present i hi)
      have hne := hf.new_ne_file _ f hget
      rw [home_file hhd hget]
      unfold archPageSize at *
      omega
  · rw [← hf.zero_content k hk]
    apply afterHead_outside hln
    have hne := hf.new_ne_zero
    unfold archPageSize at *
    omega

end Head

def Known (zeroPage : Entry) (file : File) (p : Entry) : Prop :=
  p = zeroPage ∨ ∃ i f, comFsPagecacheGet file.data i = some f ∧
    p = ofNat 64 (archPageSize * f)

structure Filed (zeroPage newPhys : Entry) (file : File) (phdr : Phdr) (mem : ℕ → BitVec 8)
    (vaddr : BitVec 64) (g : Segment) : Prop extends
    Carried zeroPage newPhys file phdr mem vaddr phdr.fileSz.toNat g where
  held : ∀ p ∈ g.space.held, Known zeroPage file p

theorem same_distance {v l k : ℕ} (hv : (v + l) % archPageSize = 0)
    (hof : (off + l) % archPageSize = 0)
    (h : (v + i) / archPageSize = (v + l + archPageSize * k) / archPageSize) :
    ¬ i < l ∧ (off + i) / archPageSize = (off + l) / archPageSize + k := by
  unfold archPageSize at *
  omega

section FilePages

variable {g : Segment} (hl : Loadable file phdr vaddr)
  (hh : Headed zeroPage newPhys file phdr mem vaddr g)
include hl hh

theorem toNat_off_add_idx : (phdr.off + g.idx).toNat = phdr.off.toNat + headLen phdr vaddr := by
  have hle := headLen_le phdr vaddr
  have hin := hl.inFile
  have hsz := hl.file_size
  rw [toNat_add, hh.idx, Nat.mod_eq_of_lt (by omega)]

theorem fsz_pos : 0 < g.fsz.toInt ↔ headLen phdr vaddr < phdr.fileSz.toNat := by
  have hlt : g.fsz.toNat < 2 ^ 63 := by
    have hfs := hh.fsz
    have hle := hl.le
    have hme := hl.memSz
    omega
  rw [pos_toInt hlt, hh.fsz]
  exact Nat.sub_pos_iff_lt

theorem loadFile_wraps (hlt : headLen phdr vaddr < phdr.fileSz.toNat)
    (hwr : 2 ^ 64 - archPageSize < phdr.off.toNat + phdr.fileSz.toNat) (fuel : ℕ) :
    loadFile zeroPage file wild phdr fuel g = none := by
  have hin := hl.inFile
  have hsz := hl.file_size
  have hcn := hl.congruent
  have hbg := (headLen_end phdr vaddr).resolve_right hlt.ne
  rw [loadFile, if_pos ((fsz_pos hl hh).mpr hlt), toNat_off_add_idx hl hh, hh.fsz, comFsTmpfsMmap,
    if_neg (by decide), mmapLoop_wraps (by omega) ?_ fuel _ _ (by omega) rfl]
  · rfl
  · unfold pagesFor archPageSize at *
    omega

theorem loadFile_done (hed : headLen phdr vaddr = phdr.fileSz.toNat) (fuel : ℕ) :
    loadFile zeroPage file wild phdr fuel g = some g ∧
      Filed zeroPage newPhys file phdr mem vaddr g := by
  constructor
  · exact if_neg ((fsz_pos hl hh).not.mpr (by omega))
  · exact ⟨hed ▸ hh.toCarried, by simp [hh.held]⟩

theorem loadFile_mapped (hlt : headLen phdr vaddr < phdr.fileSz.toNat)
    (hft : phdr.off.toNat + phdr.fileSz.toNat ≤ 2 ^ 64 - archPageSize) :
    ∃ fuel g', loadFile zeroPage file wild phdr fuel g = some g' ∧
      Filed zeroPage newPhys file phdr mem vaddr g' := by
  have hbg := (headLen_end phdr vaddr).resolve_right hlt.ne
  have hle := hl.le
  have hsp := hl.inSpace
  have hcn := hl.congruent
  have hof : (phdr.off.toNat + headLen phdr vaddr) % archPageSize = 0 := by
    unfold archPageSize at *
    omega
  have hmm := mmap_eq zeroPage dataFlags file wild g.space
    (pagesFor (phdr.fileSz.toNat - headLen phdr vaddr) + 1)
    (by decide : ¬ comMmVmmFlagsNohint.has comMmVmmFlagsPrivate) hbg
    (rounds_fit (by omega : phdr.off.toNat + headLen phdr vaddr +
      (phdr.fileSz.toNat - headLen phdr vaddr) ≤ 2 ^ 64 - archPageSize))
  rw [if_pos (Nat.lt_succ_self _)] at hmm
  refine ⟨_, _, by
    rw [loadFile, if_pos ((fsz_pos hl hh).mpr hlt), toNat_off_add_idx hl hh, hh.fsz, hh.start, hmm,
      map_some], ?_⟩
  have hpr : ∀ k < pagesFor (phdr.fileSz.toNat - headLen phdr vaddr), ∃ f,
      comFsPagecacheGet file.data
        ((phdr.off.toNat + headLen phdr vaddr) / archPageSize + k) = some f := by
    intro k hk
    rw [lt_pagesFor] at hk
    have hpg := hl.present (headLen phdr vaddr + archPageSize * k) (by omega)
    rw [← Nat.add_assoc, page_of_round] at hpg
    exact isSome_iff_exists.mp hpg
  refine ⟨⟨?_, ?_, (decide_eq_true (by omega)).symm, fun i hi => ?_, hh.bytes, hh.zero⟩,
    fun p hp => ?_⟩
  · rw [toNat_add, hh.start, hh.fsz, Nat.mod_eq_of_lt (by omega)]
    omega
  · rw [BitVec.toNat_sub_of_le, hh.memSz, hh.fsz]
    · omega
    · rw [BitVec.le_def, hh.memSz, hh.fsz]
      omega
  · obtain ⟨k, hk, hno, hlf⟩ | ⟨hnn, hlf⟩ := leaf_visits zeroPage dataFlags file.data wild
      (vaddr.toNat + headLen phdr vaddr) (phdr.off.toNat + headLen phdr vaddr) comMmVmmFlagsPrivate
      g.space (pagesFor (phdr.fileSz.toNat - headLen phdr vaddr)) (vaddr.toNat + i)
    · obtain ⟨f, hf⟩ := hpr k hk
      have hk' := (lt_pagesFor _ k).mp hk
      rw [pageNo_of_lt (by omega), pageNo_of_lt (by omega)] at hno
      have hpg := same_distance hbg hof hno
      obtain ⟨-, hpd⟩ := paddr_present hf (by decide : ¬ comMmVmmFlagsAllocate.has
        comMmVmmFlagsPrivate) zeroPage wild
      refine ⟨_, _, hlf, ?_⟩
      rw [hpd, physPage_frame (file.frames _ f hf), home_file hpg.1 (hpg.2 ▸ hf)]
    · have hhd : i < headLen phdr vaddr := by
        by_contra hge
        apply hnn ((i - headLen phdr vaddr) / archPageSize)
        · rw [lt_pagesFor]
          have := Nat.mul_div_le (i - headLen phdr vaddr) archPageSize
          omega
        · unfold pageNo archPageSize at *
          omega
      obtain ⟨phys, vmmFlags, hpl⟩ := hh.placed i hhd
      exact ⟨phys, vmmFlags, hlf.trans hpl.1, hpl.2⟩
  · rw [held_visits, hh.held, nil_append, mem_flatMap] at hp
    obtain ⟨k, hk, hp⟩ := hp
    obtain ⟨f, hf⟩ := hpr k (mem_range.mp hk)
    rw [(paddr_present hf (by decide) zeroPage wild).1, pagePhys_present hf] at hp
    exact .inr ⟨_, f, hf, by simpa using hp⟩

end FilePages

def tail (phdr : Phdr) (vaddr : BitVec 64) : ℕ :=
  (vaddr.toNat + phdr.fileSz.toNat) % archPageSize

def clearLen (phdr : Phdr) (vaddr : BitVec 64) : ℕ :=
  min (phdr.memSz.toNat - phdr.fileSz.toNat) (archPageSize - tail phdr vaddr)

structure Zeroed (zeroPage : Entry) (file : File) (phdr : Phdr) (mem : ℕ → BitVec 8)
    (vaddr : BitVec 64) (g : Segment) : Prop where
  done : ∀ i < phdr.memSz.toNat, vaddr.toNat + i < g.vaddr.toNat →
    loadByte g.space.pagetable g.mem (vaddr.toNat + i) = some (want file phdr mem i)
  rest : ∀ i < phdr.memSz.toNat, g.vaddr.toNat ≤ vaddr.toNat + i → phdr.fileSz.toNat ≤ i
  stop : g.vaddr.toNat + g.memSz.toNat = vaddr.toNat + phdr.memSz.toNat
  aligned : 0 < g.memSz.toNat → g.vaddr.toNat % archPageSize = 0
  zero : ∀ k < archPageSize, g.mem (zeroPage.toNat + k) = 0
  held : ∀ p ∈ g.space.held, Known zeroPage file p

section ZeroFill

variable {g : Segment} (hl : Loadable file phdr vaddr)
  (hg : Filed zeroPage newPhys file phdr mem vaddr g)
include hg

theorem loadByte_file {i : ℕ} (hi : i < phdr.fileSz.toNat) :
    loadByte g.space.pagetable g.mem (vaddr.toNat + i) = some (want file phdr mem i) := by
  rw [(hg.placed i hi).loadByte_eq, hg.bytes i hi]

include hl

theorem memSz_pos : 0 < g.memSz.toInt ↔ phdr.fileSz.toNat < phdr.memSz.toNat := by
  have hlt : g.memSz.toNat < 2 ^ 63 := by
    have hme := hg.memSz
    have hlt := hl.memSz
    omega
  rw [pos_toInt hlt, hg.memSz]
  exact Nat.sub_pos_iff_lt

theorem zeroFill_eq : zeroFill g =
    if tail phdr vaddr ≠ 0 ∧ phdr.fileSz.toNat < phdr.memSz.toNat then
      if 0 < phdr.fileSz.toNat then
        { g with
          mem := kmemset g.mem (archMmuGetPhysical g.space.pagetable
            (vaddr.toNat + phdr.fileSz.toNat)) (clearLen phdr vaddr)
          vaddr := g.vaddr + ofNat 64 (clearLen phdr vaddr)
          memSz := g.memSz - ofNat 64 (clearLen phdr vaddr) }
      else
        { g with
          vaddr := g.vaddr - ofNat 64 (tail phdr vaddr)
          memSz := g.memSz + ofNat 64 (tail phdr vaddr) }
    else g := by
  simp only [zeroFill, memSz_pos hl hg, hg.start, hg.mapped, hg.memSz, decide_eq_true_eq, tail,
    clearLen]

theorem zeroed_of_whole (h : ¬ (tail phdr vaddr ≠ 0 ∧ phdr.fileSz.toNat < phdr.memSz.toNat)) :
    Zeroed zeroPage file phdr mem vaddr (zeroFill g) := by
  have hsa := hg.start
  have hme := hg.memSz
  have hle := hl.le
  rw [zeroFill_eq hl hg, if_neg h]
  refine ⟨fun i _ hlt => ?_, fun i _ _ => ?_, ?_, fun _ => ?_, hg.zero, hg.held⟩
  · exact loadByte_file hg (by omega)
  · omega
  · omega
  · rw [hsa]
    change tail phdr vaddr = 0
    omega

theorem zeroed_of_empty (h : tail phdr vaddr ≠ 0 ∧ phdr.fileSz.toNat < phdr.memSz.toNat)
    (hem : phdr.fileSz.toNat = 0) : Zeroed zeroPage file phdr mem vaddr (zeroFill g) := by
  have hsa := hg.start
  have hme := hg.memSz
  have hsp := hl.inSpace
  have hmd : tail phdr vaddr ≤ vaddr.toNat + phdr.fileSz.toNat := Nat.mod_le _ _
  have hvd : (g.vaddr - ofNat 64 (tail phdr vaddr)).toNat =
      vaddr.toNat + phdr.fileSz.toNat - tail phdr vaddr := by
    rw [toNat_sub_ofNat (by omega), hsa]
  have hsz : (g.memSz + ofNat 64 (tail phdr vaddr)).toNat =
      phdr.memSz.toNat - phdr.fileSz.toNat + tail phdr vaddr := by
    rw [toNat_add_ofNat (by omega), hme]
  rw [zeroFill_eq hl hg, if_pos h, if_neg (by omega)]
  refine ⟨fun i _ hi => ?_, fun i _ _ => by omega, ?_, fun _ => ?_, hg.zero, hg.held⟩
  · dsimp only at hi
    omega
  · dsimp only
    omega
  · rw [hvd, tail]
    unfold archPageSize
    omega

theorem zeroed_of_cleared (hf : Frames zeroPage newPhys file mem)
    (h : tail phdr vaddr ≠ 0 ∧ phdr.fileSz.toNat < phdr.memSz.toNat)
    (hps : 0 < phdr.fileSz.toNat) : Zeroed zeroPage file phdr mem vaddr (zeroFill g) := by
  obtain ⟨hv, hlt⟩ := h
  have hls := Nat.sub_lt hps Nat.one_pos
  obtain ⟨hal, hph, hne⟩ := home_page hl hf hls
  have hsm := fun i hi => page_of_home hl hf (i := i) hi hls
  have hpl : Placed g.space.pagetable (vaddr.toNat + phdr.fileSz.toNat)
      (home newPhys file phdr vaddr (phdr.fileSz.toNat - 1)) := by
    apply (hg.placed _ hls).same_page
    unfold tail archPageSize at *
    omega
  generalize home newPhys file phdr vaddr (phdr.fileSz.toNat - 1) = p at *
  have hsp := hl.inSpace
  have hcl : clearLen phdr vaddr ≤ phdr.memSz.toNat - phdr.fileSz.toNat :=
    Nat.min_le_left _ _
  have hvd : (g.vaddr + ofNat 64 (clearLen phdr vaddr)).toNat =
      vaddr.toNat + phdr.fileSz.toNat + clearLen phdr vaddr := by
    rw [toNat_add_ofNat (by rw [hg.start]; omega), hg.start]
  have hsz : (g.memSz - ofNat 64 (clearLen phdr vaddr)).toNat =
      phdr.memSz.toNat - phdr.fileSz.toNat - clearLen phdr vaddr := by
    rw [toNat_sub_ofNat (by rw [hg.memSz]; omega), hg.memSz]
  rw [zeroFill_eq hl hg, if_pos ⟨hv, hlt⟩, if_pos hps, hpl.getPhysical hph]
  refine ⟨fun i hi hbl => ?_, fun i _ hi => ?_, ?_, fun hme => ?_, fun k hk => ?_, hg.held⟩
  · dsimp only at hbl ⊢
    by_cases hfl : i < phdr.fileSz.toNat
    · rw [(hg.placed i hfl).loadByte_eq, ← hg.bytes i hfl, kmemset, if_neg]
      have hpg := hsm i hfl
      have hal' := (home_page hl hf hfl).1
      generalize home newPhys file phdr vaddr i = q at *
      unfold clearLen tail archPageSize at *
      omega
    · have hpg : (vaddr.toNat + i) / archPageSize =
          (vaddr.toNat + phdr.fileSz.toNat) / archPageSize := by
        unfold clearLen tail archPageSize at *
        omega
      rw [(hpl.same_page hpg).loadByte_eq, want, if_neg hfl, kmemset, if_pos]
      unfold clearLen tail archPageSize at *
      omega
  · dsimp only at hi
    omega
  · dsimp only
    omega
  · rw [hsz] at hme
    rw [hvd]
    unfold clearLen tail archPageSize at *
    omega
  · dsimp only
    have hz := hf.zero_aligned
    rw [kmemset, if_neg, hg.zero k hk]
    unfold clearLen tail archPageSize at *
    omega

end ZeroFill

structure Loaded (zeroPage : Entry) (file : File) (phdr : Phdr) (mem : ℕ → BitVec 8)
    (vaddr : BitVec 64) (g : Segment) : Prop where
  image : ∀ i < phdr.memSz.toNat,
    loadByte g.space.pagetable g.mem (vaddr.toNat + i) = some (want file phdr mem i)
  held : ∀ p ∈ g.space.held, Known zeroPage file p

theorem loadRest_loaded {g : Segment} (hl : Loadable file phdr vaddr)
    (hz : zeroPage.toNat % archPageSize = 0 ∧ zeroPage.toNat < 2 ^ 63)
    (hg : Zeroed zeroPage file phdr mem vaddr g) :
    ∃ g', loadRest zeroPage g = some g' ∧ Loaded zeroPage file phdr mem vaddr g' := by
  have hstp := hg.stop
  have hsp := hl.inSpace
  have hps : 0 < g.memSz.toInt ↔ 0 < g.memSz.toNat := pos_toInt (by omega)
  by_cases hrs : 0 < g.memSz.toNat
  · have hal := hg.aligned hrs
    have hpg : g.vaddr.toNat / archPageSize * archPageSize = g.vaddr.toNat :=
      Nat.div_mul_cancel (Nat.dvd_of_mod_eq_zero hal)
    have hmp : comMmVmmMap zeroPage g.space g.vaddr.toNat 0 g.memSz.toNat comMmVmmFlagsAllocate
        dataFlags = some (g.vaddr.toNat, mapLoop zeroPage true g.vaddr.toNat 0
          (mapFlags comMmVmmFlagsAllocate dataFlags) (pagesFor g.memSz.toNat) g.space) := by
      have hall : comMmVmmFlagsAllocate.has comMmVmmFlagsAllocate = true := by decide
      have hnh : comMmVmmFlagsNohint.has comMmVmmFlagsAllocate = false := by decide
      rw [comMmVmmMap]
      simp [hall, hnh, hpg, pagesFor]
    refine ⟨_, by rw [loadRest, if_pos (hps.mpr hrs), hmp, map_some], ?_, ?_⟩
    · intro i hi
      have hlf := leaf_mapLoop zeroPage 0 (mapFlags comMmVmmFlagsAllocate dataFlags) g.space
        (a := vaddr.toNat + i) (pagesFor g.memSz.toNat) hal
        (by unfold pagesFor archPageSize; omega) (by omega)
      by_cases hbl : vaddr.toNat + i < g.vaddr.toNat
      · rw [if_neg (by omega)] at hlf
        rw [← hg.done i hi hbl, loadByte, hlf, loadByte]
      · have hin : vaddr.toNat + i < g.vaddr.toNat + archPageSize * pagesFor g.memSz.toNat := by
          have := (lt_pagesFor g.memSz.toNat (pagesFor g.memSz.toNat)).not.mp (Nat.lt_irrefl _)
          omega
        rw [if_pos ⟨Nat.le_of_not_lt hbl, hin⟩] at hlf
        have hpl : Placed (mapLoop zeroPage true g.vaddr.toNat 0
            (mapFlags comMmVmmFlagsAllocate dataFlags) (pagesFor g.memSz.toNat) g.space).pagetable
            (vaddr.toNat + i) zeroPage.toNat :=
          ⟨zeroPage, _, hlf, physPage_of_aligned hz.1 hz.2⟩
        have hfl := hg.rest i hi (Nat.le_of_not_lt hbl)
        rw [hpl.loadByte_eq, want, if_neg (Nat.not_lt.mpr hfl)]
        exact congrArg some (hg.zero _ (Nat.mod_lt _ (by decide)))
    · intro p hp
      exact (held_mapLoop _ hp).elim (hg.held p) .inl
  · refine ⟨g, if_neg (hps.not.mpr hrs), fun i hi => hg.done i hi (by omega), hg.held⟩

end Image

def Used (a : PageMetaArray) (page : ℕ) : Prop :=
  ∃ ref, PhysicalMemory.pageMetaGet a page = some ref ∧ (a.read ref).state ≠ .free

variable {a : PageMetaArray}

theorem Used.fill {ref : PhysicalMemory.MetaRef}
    {v : PhysicalMemory.PageMeta} (h : Used a page) (hv : v.state ≠ .free) :
    Used (a.fill ref v 1) page := by
  obtain ⟨ref', hget, hst⟩ := h
  cases ref with
  | entry i =>
    refine ⟨ref', hget, ?_⟩
    cases ref' with
    | entry j =>
      change (if i ≤ j ∧ j < i + 1 then v else a.entries j).state ≠ .free
      split_ifs
      · exact hv
      · exact hst
    | fake => exact hst
  | fake =>
    refine ⟨ref', hget, ?_⟩
    cases ref' with
    | entry j => exact hst
    | fake => exact hv

theorem Used.hold (h : Used a page) :
    ∃ a', comMmPmmHold a page = some a' ∧ ∀ q, Used a q → Used a' q := by
  obtain ⟨ref, hget, hst⟩ := h
  refine ⟨a.fill ref { a.read ref with numRef := PhysicalMemory.sizeAdd (a.read ref).numRef 1 } 1, ?_,
    fun q hq => hq.fill hst⟩
  rw [comMmPmmHold, hget]
  exact if_pos hst

theorem Used.takeFree {a' : PageMetaArray} {phys : ℕ} (h : Used a page)
    (htk : ForkMemory.takeFree a phys = some a') : Used a' page := by
  simp only [ForkMemory.takeFree, bind_eq_bind, bind_eq_some_iff] at htk
  obtain ⟨ref, -, htk⟩ := htk
  split_ifs at htk
  cases htk
  exact h.fill (by decide)

theorem exists_holds {pages : List Entry} (h : ∀ p ∈ pages, Used a p.toNat) :
    ∃ a', pages.foldlM (fun a page => comMmPmmHold a page.toNat) a = some a' := by
  induction pages generalizing a with
  | nil => exact ⟨a, rfl⟩
  | cons p pages ih =>
    obtain ⟨a', ha', hkp⟩ := (h p (.head _)).hold
    rw [foldlM_cons, ha']
    exact ih fun q hq => hkp _ (h q (.tail _ hq))

section Call

variable {zeroPage newPhys : Entry} {file : File} {phdr : Phdr} {mem : ℕ → BitVec 8}
  {vaddr : BitVec 64}

theorem Filed.zeroed {g : Segment} (hl : Loadable file phdr vaddr)
    (hf : Frames zeroPage newPhys file mem) (hg : Filed zeroPage newPhys file phdr mem vaddr g) :
    Zeroed zeroPage file phdr mem vaddr (zeroFill g) := by
  by_cases h : tail phdr vaddr ≠ 0 ∧ phdr.fileSz.toNat < phdr.memSz.toNat
  · obtain hem | hps := eq_zero_or_pos phdr.fileSz.toNat
    · exact zeroed_of_empty hl hg h hem
    · exact zeroed_of_cleared hl hg hf h hps
  · exact zeroed_of_whole hl hg h

theorem exists_loadSegment (wild : ℕ → Entry) (pt : Pagetable) (hl : Loadable file phdr vaddr)
    (hf : Frames zeroPage newPhys file mem)
    (hft : phdr.fileSz.toNat = 0 ∨ phdr.off.toNat + phdr.fileSz.toNat ≤ 2 ^ 64 - archPageSize) :
    ∃ fuel g, loadSegment zeroPage newPhys file wild phdr fuel (enter phdr mem pt vaddr) = some g ∧
      Loaded zeroPage file phdr mem vaddr g := by
  have hle := headLen_le phdr vaddr
  obtain ⟨g, hg, hhd⟩ : ∃ g, loadHead zeroPage newPhys file phdr (enter phdr mem pt vaddr) =
      some g ∧ Headed zeroPage newPhys file phdr mem vaddr g := by
    obtain hz | hps := eq_zero_or_pos (headLen phdr vaddr)
    · exact ⟨_, loadHead_absent hl pt hf hz⟩
    · exact loadHead_present hl hf pt hps (by omega)
  obtain ⟨fuel, g', hg', hfl⟩ : ∃ fuel g', loadFile zeroPage file wild phdr fuel g = some g' ∧
      Filed zeroPage newPhys file phdr mem vaddr g' := by
    obtain hlt | hed := hle.lt_or_eq
    · exact loadFile_mapped hl hhd hlt (by omega)
    · exact ⟨0, g, loadFile_done hl hhd hed 0⟩
  obtain ⟨g'', hg'', hldd⟩ := loadRest_loaded hl ⟨hf.zero_aligned, hf.zero_lt⟩ (hfl.zeroed hl hf)
  refine ⟨fuel, g'', ?_, hldd⟩
  rw [loadSegment, hg, bind_some, hg', bind_some, hg'']

theorem loadSegment_wraps (wild : ℕ → Entry) (pt : Pagetable) (hl : Loadable file phdr vaddr)
    (hf : Frames zeroPage newPhys file mem) (hps : 0 < phdr.fileSz.toNat)
    (hwr : 2 ^ 64 - archPageSize < phdr.off.toNat + phdr.fileSz.toNat) (fuel : ℕ) :
    loadSegment zeroPage newPhys file wild phdr fuel (enter phdr mem pt vaddr) = none := by
  have hle := headLen_le phdr vaddr
  rw [loadSegment]
  cases hhd : loadHead zeroPage newPhys file phdr (enter phdr mem pt vaddr) with
  | none => rfl
  | some g =>
    have hsg : Headed zeroPage newPhys file phdr mem vaddr g ∧
        headLen phdr vaddr < phdr.fileSz.toNat := by
      obtain hz | hln := Nat.eq_zero_or_pos (headLen phdr vaddr)
      · obtain ⟨heq, hhdd⟩ := loadHead_absent hl pt hf hz
        rw [hhd] at heq
        exact ⟨some.inj heq ▸ hhdd, by omega⟩
      · by_cases hls : phdr.off.toNat + headLen phdr vaddr ≤ 2 ^ 64 - archPageSize
        · obtain ⟨g', hg', hhdd⟩ := loadHead_present hl hf pt hln hls
          rw [hhd] at hg'
          exact ⟨some.inj hg' ▸ hhdd, by omega⟩
        · rw [loadHead_eq ((needsHead_iff hl).mpr hln) hln hf.new_aligned,
            read_last hln (hl.inFile.trans' (Nat.add_le_add_left hle _))
            hl.file_size (Nat.lt_of_not_le hls)] at hhd
          simp at hhd
    rw [bind_some, loadFile_wraps hl hsg.1 hsg.2 hwr fuel]
    rfl

/-- What a call finds: the segment lies in the file and in user memory, and the pages it maps are in
use. -/
structure Callable (zeroPage newPhys : Entry) (file : File) (phdr : Phdr) (s : System)
    (vaddr : BitVec 64) : Prop where
  loadable : Loadable file phdr vaddr
  frames : Frames zeroPage newPhys file s.mem
  zero : Used s.pageMeta zeroPage.toNat
  file : ∀ i f, comFsPagecacheGet file.data i = some f → Used s.pageMeta (archPageSize * f)
  new : NeedsHead phdr vaddr → (takeFree s.pageMeta newPhys.toNat).isSome

variable {s : System} {t : ℕ} {pt : Pagetable} (h : Callable zeroPage newPhys file phdr s vaddr)
  (wild : ℕ → Entry) (ht : s.tables[t]? = some pt)

include h ht

theorem Callable.load_wraps (hwrap : ¬ (phdr.fileSz.toNat = 0 ∨
      phdr.off.toNat + phdr.fileSz.toNat ≤ 2 ^ 64 - archPageSize)) (fuel : ℕ) :
    load zeroPage newPhys file wild phdr fuel s t vaddr = none := by
  rw [not_or] at hwrap
  rw [load, ht, bind_eq_bind, bind_some, loadSegment_wraps wild pt h.loadable h.frames
    (Nat.pos_of_ne_zero hwrap.1) (Nat.lt_of_not_le hwrap.2)]
  simp

theorem Callable.exists_load (hends : phdr.fileSz.toNat = 0 ∨
      phdr.off.toNat + phdr.fileSz.toNat ≤ 2 ^ 64 - archPageSize) :
    ∃ fuel s' pt', load zeroPage newPhys file wild phdr fuel s t vaddr = some s' ∧
      s'.tables[t]? = some pt' ∧ ∀ i < phdr.memSz.toNat,
        loadByte pt' s'.mem (vaddr.toNat + i) = some (want file phdr s.mem i) := by
  obtain ⟨fuel, g, hg, hldd⟩ := exists_loadSegment wild pt h.loadable h.frames hends
  obtain ⟨a, ha, hkp⟩ : ∃ a, takeHead newPhys phdr s.pageMeta vaddr = some a ∧
      ∀ q, Used s.pageMeta q → Used a q := by
    by_cases hnd : NeedsHead phdr vaddr
    · obtain ⟨a, ha⟩ := isSome_iff_exists.mp (h.new hnd)
      exact ⟨a, (if_pos hnd).trans ha, fun q hq => hq.takeFree ha⟩
    · exact ⟨_, if_neg hnd, fun q hq => hq⟩
  have hus : ∀ p ∈ g.space.held, Used a p.toNat := by
    intro p hp
    obtain rfl | ⟨i, f, hget, rfl⟩ := hldd.held p hp
    · exact hkp _ h.zero
    · have hfm := file.frames i f hget
      rw [toNat_ofNat, Nat.mod_eq_of_lt (by unfold archPageSize; omega)]
      exact hkp _ (h.file i f hget)
  obtain ⟨a', ha'⟩ := exists_holds hus
  have hln := (List.getElem?_eq_some_iff.mp ht).1
  refine ⟨fuel, ⟨a', g.mem, s.tables.set t g.space.pagetable⟩, g.space.pagetable, ?_, by simp [hln],
    hldd.image⟩
  rw [load, ht, bind_eq_bind, bind_some, ha, bind_eq_bind, bind_some,
    hg, bind_eq_bind, bind_some, ha']
  rfl

end Call

/-- A segment is loaded as its header says exactly if the file's part of it, if there is one, stays
out of the last page of the 64-bit range. -/
theorem load_image_iff (zeroPage newPhys : Entry) (file : File) (wild : ℕ → Entry) (phdr : Phdr)
    (s : System) (t : ℕ) (pt : Pagetable) (ht : s.tables[t]? = some pt) (vaddr : BitVec 64)
    (hl : Loadable file phdr vaddr) (hf : Frames zeroPage newPhys file s.mem)
    (hzero : Used s.pageMeta zeroPage.toNat)
    (hfile : ∀ i f, comFsPagecacheGet file.data i = some f → Used s.pageMeta (archPageSize * f))
    (hnew : NeedsHead phdr vaddr → (takeFree s.pageMeta newPhys.toNat).isSome) :
    (∃ fuel s' pt', load zeroPage newPhys file wild phdr fuel s t vaddr = some s' ∧ s'.tables[t]? =
        some pt' ∧ ∀ i < phdr.memSz.toNat, loadByte pt' s'.mem (vaddr.toNat + i) = some (want file
        phdr s.mem i)) ↔
      phdr.fileSz.toNat = 0 ∨ phdr.off.toNat + phdr.fileSz.toNat ≤ 2 ^ 64 - archPageSize := by
  have hcall : Callable zeroPage newPhys file phdr s vaddr := ⟨hl, hf, hzero, hfile, hnew⟩
  refine ⟨fun ⟨fuel, s', _, hld, _⟩ => ?_, hcall.exists_load wild ht⟩
  by_contra hwrap
  rw [hcall.load_wraps wild ht hwrap] at hld
  cases hld

def emptyPages : PageCache.Cache :=
  { PageCache.comFsPagecacheNew with
    nextPage := 4
    allocated := fun i a h => absurd h (by simp [PageCache.comFsPagecacheNew, PageCache.get_blank]) }

def programPages : PageCache.Cache :=
  ((PageCache.comFsPagecacheDefault emptyPages (2 ^ 36 - 1)).map Prod.snd).getD emptyPages

theorem get_programPages (i : ℕ) :
    comFsPagecacheGet programPages i = if i % 2 ^ 36 = 2 ^ 36 - 1 then some 4 else none := by
  obtain ⟨address, c, hdf, hspc⟩ := PageCache.default_spec emptyPages (2 ^ 36 - 1)
  have hpgs : programPages = c := by rw [programPages, hdf]; rfl
  have had : comFsPagecacheGet programPages (2 ^ 36 - 1) = some 4 := by decide +kernel
  have hbn : comFsPagecacheGet emptyPages i = none := PageCache.get_blank i
  rw [hpgs, hspc.get, if_pos rfl] at had
  rw [hpgs, hspc.get, hbn, had]
  exact if_congr PageCache.splitIndex_three_eq_iff rfl rfl

def program : File where
  size := 2 ^ 64 - 1
  data := programPages
  frames i f h := by
    rw [get_programPages] at h
    split_ifs at h
    cases h
    decide

def programSystem : System where
  pageMeta := ⟨none, fun f => if f = 4 ∨ f = 5 then PhysicalMemory.takenMeta else .zero, 32, 32, 32,
    PhysicalMemory.reservedMeta⟩
  mem a := if a / archPageSize = 5 then 0 else 7
  tables := [RadixTable.blank 0 3]

theorem get_program (h : comFsPagecacheGet program.data i = some f) : f = 4 := by
  rw [show program.data = programPages from rfl, get_programPages] at h
  split_ifs at h
  exact (some.inj h).symm

theorem program_frames : Frames 0x5000 0x6000 program programSystem.mem where
  zero_aligned := by decide
  zero_lt := by decide
  zero_content k hk := by
    have hpg : ((0x5000 : Entry).toNat + k) / archPageSize = 5 := by
      unfold archPageSize at *
      simp
      omega
    exact if_pos hpg
  file_pos i f h := by
    rw [get_program h]
    decide
  file_ne_zero i f h := by
    rw [get_program h]
    decide
  new_aligned := by decide
  new_lt := by decide
  new_pos := by decide
  new_ne_zero := by decide
  new_ne_file i f h := by
    rw [get_program h]
    decide

theorem program_used (h : comFsPagecacheGet program.data i = some f) :
    Used programSystem.pageMeta (archPageSize * f) := by
  rw [get_program h]
  exact ⟨.entry 4, rfl, by decide⟩

theorem load_image_two_pages : ∃ fuel s' pt', load 0x5000 0x6000 program (fun _ => 0)
    ⟨1, 0xfffffffff000, 0x400000, 1, 0x2000⟩ fuel programSystem 0 0x400000 = some s' ∧
      s'.tables[0]? = some pt' ∧ ∀ i < 0x2000, loadByte pt' s'.mem (0x400000 + i) =
        some (want program ⟨1, 0xfffffffff000, 0x400000, 1, 0x2000⟩ programSystem.mem i) := by
  refine (load_image_iff 0x5000 0x6000 program _ ⟨1, 0xfffffffff000, 0x400000, 1, 0x2000⟩ programSystem
    0 _ rfl 0x400000 ⟨by decide, by decide, by decide, by decide, by decide, by decide, fun i hi => ?_⟩
    program_frames ⟨.entry 5, rfl, by decide⟩ (fun _ _ => program_used) (by decide)).mpr (by decide)
  obtain rfl : i = 0 := Nat.lt_one_iff.mp hi
  decide +kernel

/-- The last page of the 64-bit range: the call does not return. -/
theorem load_last_page : ¬ ∃ fuel s', load 0x5000 0x6000 program (fun _ => 0)
    ⟨1, 0xfffffffffffff000, 0x400000, 1, 1⟩ fuel programSystem 0 0x400000 = some s' := by
  rintro ⟨fuel, s', hld⟩
  have hl : Loadable program ⟨1, 0xfffffffffffff000, 0x400000, 1, 1⟩ 0x400000 := by
    refine ⟨by decide, by decide, by decide, by decide, by decide, by decide, fun i hi => ?_⟩
    obtain rfl : i = 0 := Nat.lt_one_iff.mp hi
    decide +kernel
  rw [load, show programSystem.tables[0]? = some (RadixTable.blank 0 3) from rfl,
    bind_eq_bind, bind_some,
    loadSegment_wraps _ _ hl program_frames (by decide) (by decide)] at hld
  simp at hld

end ElfSegment
