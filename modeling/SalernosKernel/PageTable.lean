import SalernosKernel.Config
import SalernosKernel.RadixTable

/-! # Four-level page tables

A table is a tree: each paging structure is reached by one entry only, and the label of a slot
is the entry without its address bits. An empty slot is an entry that is zero. -/
namespace PageTable

open RadixTable

abbrev Entry := BitVec 64

def addrMask : Entry := 0x7ffffffffffff000
def archMmuFlagsRead : Entry := 1
def archMmuFlagsWrite : Entry := 2
def archMmuFlagsUser : Entry := 4
def archMmuFlagsPresent : Entry := 1
def archMmuExtraFlagsPrivate : Entry := 1 <<< 9
def archMmuExtraFlagsShared : Entry := 1 <<< 10
def archMmuExtraFlagsNocopy : Entry := 1 <<< 11

def dataFlags : Entry := archMmuFlagsRead ||| archMmuFlagsWrite ||| archMmuFlagsUser

def has (flag entry : Entry) : Bool := flag &&& entry != 0

abbrev present : Entry → Bool := has archMmuFlagsPresent

abbrev Level (n : ℕ) := Table 512 Entry Entry n

abbrev Pagetable := Level 3

def pathOf : ∀ n : ℕ, ℕ → RadixTable.Path 512 n
  | 0, addr => .last ⟨addr / 2 ^ 12 % 512, Nat.mod_lt _ (by decide)⟩
  | n + 1, addr => .step ⟨addr / 2 ^ (12 + 9 * (n + 1)) % 512, Nat.mod_lt _ (by decide)⟩ (pathOf n addr)

/-- The entry that the pointer returned by `get_page` points at. -/
def getPage (top : Pagetable) (vaddr : ℕ) : Option Entry :=
  lookup top (pathOf 3 vaddr)

def setPage (top : Pagetable) (vaddr : ℕ) (e : Entry) : Option Pagetable :=
  write top (pathOf 3 vaddr) e

def addPage (top : Pagetable) (vaddr : ℕ) (entry : Entry) : Pagetable :=
  insert (archMmuFlagsRead ||| archMmuFlagsWrite ||| archMmuFlagsUser) 0 top
    (pathOf 3 vaddr) entry

def archMmuMap (pt : Pagetable) (virt : ℕ) (phys flags : Entry) : Pagetable :=
  addPage pt virt ((phys &&& addrMask) ||| flags)

def archMmuUnmap (pt : Pagetable) (virt : ℕ) : Option (Entry × Pagetable) :=
  (getPage pt virt).bind fun entry =>
    (setPage pt virt 0).map fun pt => (entry &&& addrMask, pt)

variable {pt pt' : Pagetable} {a b v : ℕ} {e : Entry}

def pageNo (a : ℕ) : ℕ := a / 4096 % 2 ^ 36

theorem pathOf_eq_iff : pathOf 3 a = pathOf 3 b ↔ pageNo a = pageNo b := by
  simp only [pathOf, Path.step.injEq, Path.last.injEq, Fin.mk.injEq, pageNo]
  omega

theorem getPage_setPage (h : setPage pt v e = some pt') :
    getPage pt' a = if pageNo a = pageNo v then some e else getPage pt a := by
  rw [getPage, lookup_write h]
  exact if_congr pathOf_eq_iff rfl rfl

theorem setPage_isSome : (setPage pt v e).isSome ↔ (getPage pt v).isSome :=
  write_isSome

theorem setPage_eq_addPage {old : Entry} (h : getPage pt v = some old) :
    setPage pt v e = some (addPage pt v e) :=
  write_eq_insert h

end PageTable
