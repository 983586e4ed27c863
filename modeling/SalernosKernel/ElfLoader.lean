import SalernosKernel.ElfSegment

/-! # The program loader

`com_sys_elf64_load` of `com/sys/elf.c` from the vnode on that the path leads to, a vnode of the
tmpfs. `load` returns 0 whenever it returns, and it may change the contents of the file. -/
namespace ElfLoader

open FileMapping (File comFsVfsRead)
open ElfSegment (Phdr)
open ForkMemory (System takeFree)
open PageTable (Entry)
open PageCache (Cache)
open TmpfsFile (Node byteAt)
open List

inductive Ret where
  | ok
  | EACCES
  | vfs (e : Errno)
  deriving DecidableEq

structure ElfData where
  entry : BitVec 64
  phdr : BitVec 64
  phentSz : ℕ
  phentNum : ℕ
  interpreterPath : List UInt8
  deriving DecidableEq

structure Report (S : Type*) where
  state : S
  out : ElfData
  headers : List (Phdr × ℕ)
  loaded : List Phdr
  /-- How many bytes were stored into `interpreter_path`, for each `PT_INTERP`. -/
  stored : List ℕ

def ptLoad : BitVec 32 := 1
def ptInterp : BitVec 32 := 3
def ptPhdr : BitVec 32 := 6

def headerSize : ℕ := 64
def phdrSize : ℕ := 56

def field (bytes : List UInt8) (off n : ℕ) : ℕ :=
  ((bytes.drop off).take n).foldr (fun b x => x * 256 + b.toNat) 0

def phdrOf (bytes : List UInt8) : Phdr where
  type := BitVec.ofNat 32 (field bytes 0 4)
  off := BitVec.ofNat 64 (field bytes 8 8)
  virtAddr := BitVec.ofNat 64 (field bytes 16 8)
  fileSz := BitVec.ofNat 64 (field bytes 32 8)
  memSz := BitVec.ofNat 64 (field bytes 40 8)

def expectedSignature : List UInt8 := [0x7f, 0x45, 0x4c, 0x46]

def entryOf (bytes : List UInt8) : BitVec 64 := BitVec.ofNat 64 (field bytes 24 8)
def phdrsOffOf (bytes : List UInt8) : ℕ := field bytes 32 8
def phentNumOf (bytes : List UInt8) : ℕ := field bytes 56 2

section Model

variable {S : Type*} (type : VnodeType) (size : ℕ) (data : S → Cache)
  (load : S → Phdr → BitVec 64 → Option S) (virtOff : BitVec 64)

def node (s : S) : Node := ⟨type, size, data s⟩

def interpret (r : Report S) (phdr : Phdr) : Option (Ret × Report S) :=
  match comFsVfsRead (node type size data r.state) phdr.off.toNat phdr.fileSz.toNat with
  | none => none
  | some (.error e) => some (.vfs e, r)
  | some (.ok (_, path)) => some (.ok, { r with
      out := { r.out with interpreterPath := path ++ r.out.interpreterPath.drop path.length }
      stored := r.stored ++ [path.length] })

def dispatch (r : Report S) (phdr : Phdr) : Option (Ret × Report S) :=
  let vaddr := virtOff + phdr.virtAddr
  if phdr.type = ptInterp then interpret type size data r phdr
  else if phdr.type = ptPhdr then some (.ok, { r with out := { r.out with phdr := vaddr } })
  else if phdr.type = ptLoad then
    (load r.state phdr vaddr).map fun s =>
      (.ok, { r with state := s, loaded := r.loaded ++ [phdr] })
  else some (.ok, r)

/-- The loop over the program headers from number `i` on. No result is a read or a `load` that does
not return. -/
def headerLoop (phdrsOff : ℕ) : ℕ → ℕ → Report S → Option (Ret × Report S)
  | 0, _, r => some (.ok, r)
  | n + 1, i, r =>
    let off := (phdrsOff + i * phdrSize) % 2 ^ 64
    match comFsVfsRead (node type size data r.state) off phdrSize with
    | none => none
    | some (.error e) => some (.vfs e, r)
    | some (.ok (count, bytes)) =>
      let phdr := phdrOf bytes
      let r := { r with headers := r.headers ++ [(phdr, count.getD 0)] }
      match dispatch type size data load virtOff r phdr with
      | some (.ok, r) => headerLoop phdrsOff n (i + 1) r
      | other => other

/-- No result is a failed assertion, or a read or a `load` that does not return. -/
def comSysElf64Load (s : S) (out : ElfData) : Option (Ret × Report S) :=
  let r : Report S := ⟨s, out, [], [], []⟩
  if type ≠ .file then some (.ok, r)
  else match comFsVfsRead (node type size data s) 0 4 with
    | none => none
    | some (.error e) => some (.vfs e, r)
    | some (.ok (count, signature)) =>
      if count ≠ some 4 ∨ signature ≠ expectedSignature then some (.EACCES, r)
      else match comFsVfsRead (node type size data s) 0 headerSize with
        | none => none
        | some (.error e) => some (.vfs e, r)
        | some (.ok (count, header)) =>
          if count = some headerSize then
            let out := { out with phdr := 0, phentSz := phdrSize, phentNum := phentNumOf header }
            (headerLoop type size data load virtOff (phdrsOffOf header) (phentNumOf header) 0
              { r with out := out }).map fun
                | (.ok, r) => (.ok, { r with out := { r.out with entry := virtOff + entryOf header } })
                | other => other
          else none

end Model

def readCount (size off n : ℕ) : ℕ := if 2 ^ 64 ≤ off + n then 0 else min n (size - off)

def ReadReturns (size off n : ℕ) : Prop :=
  off + readCount size off n ≤ 2 ^ 64 - archPageSize ∨ readCount size off n = 0
  deriving Decidable

def bytesAt (c : Cache) (off n : ℕ) : List UInt8 := (List.range' off n).map (byteAt c)

section Rounds

variable {S : Type*} (size : ℕ) (data : S → Cache) (load : S → Phdr → BitVec 64 → Option S)
  (virtOff : BitVec 64) (phdrsOff : ℕ)

def PhdrReturns (s : S) (phdr : Phdr) : Prop :=
  (phdr.type = ptInterp → ReadReturns size phdr.off.toNat phdr.fileSz.toNat) ∧
    (phdr.type = ptLoad → (load s phdr (virtOff + phdr.virtAddr)).isSome)

def Proper (s : S) (off : ℕ) : Prop :=
  let phdr := phdrOf (bytesAt (data s) off phdrSize)
  readCount size off phdrSize = phdrSize ∧ ReadReturns size off phdrSize ∧
    PhdrReturns size load virtOff s phdr ∧
    (phdr.type = ptInterp → readCount size phdr.off.toNat phdr.fileSz.toNat ≤ 64)

def after (s : S) (off : ℕ) : S :=
  let phdr := phdrOf (bytesAt (data s) off phdrSize)
  if phdr.type = ptLoad then (load s phdr (virtOff + phdr.virtAddr)).getD s else s

def Rounds : ℕ → ℕ → S → Prop
  | 0, _, _ => True
  | n + 1, i, s =>
    let off := (phdrsOff + i * phdrSize) % 2 ^ 64
    Proper size data load virtOff s off ∧ Rounds n (i + 1) (after data load virtOff s off)

end Rounds

section Loop

variable {S : Type*} {size : ℕ} {data : S → Cache} {load : S → Phdr → BitVec 64 → Option S}
  {virtOff : BitVec 64} {phdrsOff : ℕ}

theorem read_spec (s : S) (off n : ℕ) : comFsVfsRead (node .file size data s) off n =
    if ReadReturns size off n then
      some (.ok (some (readCount size off n), bytesAt (data s) off (readCount size off n)))
    else none := by
  rw [comFsVfsRead, if_neg (by simp [node])]
  by_cases hwr : 2 ^ 64 ≤ off + n
  · have hct : readCount size off n = 0 := if_pos hwr
    rw [if_pos hwr, if_pos (.inr hct), hct]
    rfl
  · have hct : readCount size off n = min n (size - off) := if_neg hwr
    rw [if_neg hwr, TmpfsFile.read_eq (by simp [node])]
    change (if _ < min _ size ∧ _ < min _ size then _ else _) = _
    by_cases hen : ReadReturns size off n
    · rw [if_pos hen, hct]
      rw [ReadReturns, hct] at hen
      rw [if_neg (by omega)]
      rfl
    · rw [if_neg hen]
      rw [ReadReturns, hct] at hen
      rw [if_pos (by omega)]

structure Careful (r : Report S) : Prop where
  whole : ∀ h ∈ r.headers, h.2 = phdrSize
  fits : ∀ n ∈ r.stored, n ≤ 64

structure Recorded (r : Report S) (i : ℕ) : Prop where
  count : r.headers.length = i
  loaded : r.loaded = (r.headers.map Prod.fst).filter fun p => p.type = ptLoad

end Loop

section Whole

variable {S : Type*} (type : VnodeType) (size : ℕ) (data : S → Cache)
  (load : S → Phdr → BitVec 64 → Option S) (virtOff : BitVec 64)

def Signed (s : S) : Prop := 4 ≤ size ∧ bytesAt (data s) 0 4 = expectedSignature

/-- The call comes back without a slip, and reports success only for a regular file that was loaded
as a whole. -/
def Clean (s : S) (result : Option (Ret × Report S)) : Prop :=
  let header := bytesAt (data s) 0 headerSize
  ∃ ret r, result = some (ret, r) ∧ Careful r ∧ (ret = .ok → type = .file ∧
    r.out.entry = virtOff + entryOf header ∧ Recorded r (phentNumOf header))

def Loadable (s : S) : Prop :=
  let header := bytesAt (data s) 0 headerSize
  type = .file ∧ (Signed size data s → headerSize ≤ size ∧
    Rounds size data load virtOff (phdrsOffOf header) (phentNumOf header) 0 s)

variable (out : ElfData)

end Whole

/-- `load` into the address space with number `t`; the page that the allocator hands out depends on
the state. -/
def loadInto (zeroPage : Entry) (newPhys : System → Entry) (file : File) (wild : ℕ → Entry)
    (fuel t : ℕ) (s : System) (phdr : Phdr) (vaddr : BitVec 64) : Option System :=
  ElfSegment.load zeroPage (newPhys s) file wild phdr fuel s t vaddr

def contents (file : File) (s : System) : Cache := (file.node s.mem).data

def scriptPages : PageCache.Cache :=
  ((PageCache.comFsPagecacheDefault ElfSegment.emptyPages 0).map Prod.snd).getD ElfSegment.emptyPages

theorem scriptPages_frame {i f : ℕ} (h : PageCache.comFsPagecacheGet scriptPages i = some f) :
    f = 4 := by
  obtain ⟨address, c, hdf, hsp⟩ := PageCache.default_spec ElfSegment.emptyPages 0
  have hpgs : scriptPages = c := by rw [scriptPages, hdf]; rfl
  have had : PageCache.comFsPagecacheGet scriptPages 0 = some 4 := by decide +kernel
  rw [hpgs, hsp.get, if_pos rfl] at had
  rw [hpgs, hsp.get, had] at h
  split_ifs at h
  · exact (Option.some.inj h).symm
  · exact absurd (h.symm.trans (PageCache.get_blank i)) (by simp)

def script : File where
  size := 128
  data := scriptPages
  frames _ _ h := by rw [scriptPages_frame h]; decide

def le (k n : ℕ) : List UInt8 := (range k).map fun i => UInt8.ofNat (n / 256 ^ i)

/-- A program with one segment, of which the last eight bytes are memory only, and eight more bytes
behind it in the file. -/
def binary : List UInt8 :=
  expectedSignature ++ le 4 0x10102 ++ le 8 0 ++ le 2 2 ++ le 2 0x3e ++ le 4 1 ++
    le 8 0x400078 ++ le 8 64 ++ le 8 0 ++ le 4 0 ++ le 2 64 ++ le 2 56 ++ le 2 1 ++ le 6 0 ++
    (le 4 1 ++ le 4 7 ++ le 8 0 ++ le 8 0x400000 ++ le 8 0 ++ le 8 120 ++ le 8 128 ++ le 8 0x1000) ++
    replicate 8 7

def scriptSystem : System :=
  { ElfSegment.programSystem with
    mem := fun a => if a / archPageSize = 4 then (binary[a % archPageSize]?.getD 0).toBitVec else 0 }

end ElfLoader
