import SalernosKernel.ByteMemory
import SalernosKernel.Config

/-! # The stack of a new program

`com_sys_elf64_prepare_stack` of `com/sys/elf.c`. The kernel writes the last page of the stack
through its window on physical memory, so its pointers stand for physical addresses. -/
namespace ElfStack

open ByteMemory List
open BitVec (ofNat toNat_ofNat toNat_sub)

abbrev Ptr := BitVec 64

abbrev Mem := Ptr → UInt8

def AT_NULL : Ptr := 0
def AT_PHDR : Ptr := 3
def AT_PHENT : Ptr := 4
def AT_PHNUM : Ptr := 5
def AT_ENTRY : Ptr := 9

structure ElfData where
  entry : Ptr
  phdr : Ptr
  phentSz : Ptr
  phentNum : Ptr

abbrev CString := {s : List UInt8 // 0 ∉ s}

def kstrlen (s : CString) : ℕ := s.val.length

def CString.bytes (s : CString) : List UInt8 := s.val ++ [0]

abbrev Stack := Mem × Ptr

def push (z : Stack) (x : Ptr) : Stack := (write z.1 (z.2 - 8) (word x), z.2 - 8)

def auxv (elfData : ElfData) : List Ptr :=
  [AT_PHNUM, elfData.phentNum, AT_PHENT, elfData.phentSz, AT_PHDR, elfData.phdr, AT_ENTRY,
    elfData.entry, AT_NULL, 0]

def tables (elfData : ElfData) (argPtrs envPtrs : List Ptr) : List Ptr :=
  ofNat 64 argPtrs.length :: argPtrs ++ 0 :: envPtrs ++ 0 :: auxv elfData

def depth (stackEndVirt p : Ptr) : ℕ := (stackEndVirt - p).toNat

/-- What the program reads: its last stack page, and nothing where no page is mapped. -/
def virtual (stackEndPhys stackEndVirt : Ptr) (m : Mem) (v : Ptr) : Option UInt8 :=
  if 0 < depth stackEndVirt v ∧ depth stackEndVirt v ≤ archPageSize then
    some (m (stackEndPhys - (stackEndVirt - v)))
  else none

def Reads (read : Ptr → Option UInt8) (p : Ptr) (xs : List UInt8) : Prop :=
  ∀ k < xs.length, xs[k]? = read (p + ofNat 64 k)

def Apart (stackEndVirt : Ptr) (c d : Ptr × CString) : Prop :=
  depth stackEndVirt c.1 + (kstrlen d.2 + 1) ≤ depth stackEndVirt d.1 ∨
    depth stackEndVirt d.1 + (kstrlen c.2 + 1) ≤ depth stackEndVirt c.1

def stringBytes (strs : List CString) : ℕ := (strs.map fun s => kstrlen s + 1).foldr (· + ·) 0

def tableBytes (argv envp : List CString) : ℕ := 8 * (argv.length + envp.length + 13)

def padded (n : ℕ) : ℕ := (n + 15) / 16 * 16

structure Layout (elfData : ElfData) (argv envp : List CString) (stackEndVirt : Ptr)
    (read : Ptr → Option UInt8) (sp : Ptr) (argPtrs envPtrs : List Ptr) : Prop where
  aligned : sp.toNat % 16 = 0
  argc : argPtrs.length = argv.length
  envc : envPtrs.length = envp.length
  words : Reads read sp ((tables elfData argPtrs envPtrs).flatMap word)
  copies : ∀ c ∈ argPtrs.zip argv ++ envPtrs.zip envp, Reads read c.1 c.2.bytes
  above : ∀ c ∈ argPtrs.zip argv ++ envPtrs.zip envp,
    depth stackEndVirt c.1 + tableBytes argv envp ≤ depth stackEndVirt sp
  below : ∀ c ∈ argPtrs.zip argv ++ envPtrs.zip envp, kstrlen c.2 + 1 ≤ depth stackEndVirt c.1
  apart : (argPtrs.zip argv ++ envPtrs.zip envp).Pairwise (Apart stackEndVirt)
  size : depth stackEndVirt sp = padded (stringBytes (envp ++ argv)) + padded (tableBytes argv envp)

variable {e endVirt : Ptr} {z : Stack} {m : Mem} {p : Ptr} {ys : List UInt8} {strs : List CString}

@[simp] theorem length_bytes (s : CString) : s.bytes.length = kstrlen s + 1 := by
  simp [CString.bytes, kstrlen]

def stored : List CString → List UInt8
  | [] => []
  | s :: strs => stored strs ++ s.bytes

def offsets : ℕ → List CString → List ℕ
  | _, [] => []
  | off, s :: strs => (off + (kstrlen s + 1)) :: offsets (off + (kstrlen s + 1)) strs

@[simp] theorem length_offsets (off : ℕ) (strs : List CString) :
    (offsets off strs).length = strs.length := by
  induction strs generalizing off with
  | nil => rfl
  | cons s strs ih => simp [offsets, ih]

theorem toNat_mask (x : Ptr) : (x &&& ~~~0xF#64).toNat = x.toNat / 16 * 16 := by
  have hms : ∀ k < 64, (~~~0xF#64).getLsbD k = decide (4 ≤ k) := by decide
  have hsh : x &&& ~~~0xF#64 = x >>> 4 <<< 4 := by
    apply BitVec.eq_of_getLsbD_eq
    intro k hk
    rw [BitVec.getLsbD_and, hms k hk, BitVec.getLsbD_shiftLeft, BitVec.getLsbD_ushiftRight]
    by_cases h : 4 ≤ k
    · simp [h, hk]
    · simp [h]
  rw [hsh, BitVec.toNat_shiftLeft, BitVec.toNat_ushiftRight, Nat.shiftLeft_eq,
    Nat.shiftRight_eq_div_pow]
  omega

variable {n off : ℕ}

variable {argv envp : List CString}

/-- The program can only read `argc` in its stack page. -/
theorem Layout.fits {elfData : ElfData} {sp : Ptr} {argPtrs envPtrs : List Ptr}
    (h : Layout elfData argv envp endVirt (virtual e endVirt m) sp argPtrs envPtrs) :
    padded (stringBytes (envp ++ argv)) + padded (tableBytes argv envp) ≤ archPageSize := by
  have hlen : 0 < ((tables elfData argPtrs envPtrs).flatMap word).length := by
    rw [length_flatMap_word, tables]
    exact Nat.mul_pos (by decide) (Nat.succ_pos _)
  have hargc := h.words 0 hlen
  rw [getElem?_eq_getElem hlen, BitVec.add_zero, virtual, h.size] at hargc
  split_ifs at hargc with hpage
  exact hpage.2

end ElfStack
