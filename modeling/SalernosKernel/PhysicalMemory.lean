import Mathlib.Algebra.Order.Ring.Nat
import SalernosKernel.Config
import SalernosKernel.TailQueue

/-! # The physical page allocator

Free blocks are threaded through their own first words in the higher-half direct map: two queue
links and the page count. The free-list lock makes every call one step, so calls are functions on
the allocator state; `none` is a failed `KASSERT`, which panics. -/
namespace PhysicalMemory

open TailQueue
open TailQueue (Queue)

def hhdmOffset : ℕ := 0xffff800000000000
def archPhysToHhdm (addr : ℕ) : ℕ := hhdmOffset + addr
def archHhdmToPhys (addr : ℕ) : ℕ := addr - hhdmOffset

/-- Address of `MainFreeList.head` in the kernel image, chosen by the linker. Only its being
no page of the direct map matters. -/
def mainFreeListHead : ℕ := 0xffffffff80200040

def sizeDec (n : ℕ) : ℕ := if n = 0 then 2 ^ 64 - 1 else n - 1
def sizeAdd (a b : ℕ) : ℕ := (a + b) % 2 ^ 64
def sizeSub (a b : ℕ) : ℕ := (a + (2 ^ 64 - b % 2 ^ 64)) % 2 ^ 64

def entryPages (q : Queue) (entry : ℕ) : ℕ := q.mem (entry + 16)
def setPages (q : Queue) (entry pages : ℕ) : Queue := q.store (entry + 16) pages

/-- The `TAILQ_FOREACH_SAFE` loop of the ordered insertion; to run out of fuel is never to end. -/
def freelistScan (q : Queue) (entry : ℕ) : ℕ → ℕ → Option Queue
  | fuel, curr =>
    if curr = 0 then some (insertTail mainFreeListHead q entry)
    else match fuel with
      | 0 => none
      | fuel + 1 =>
        if entryPages q entry ≥ entryPages q curr then
          some (insertBefore mainFreeListHead q curr entry)
        else freelistScan q entry fuel (q.mem curr)

def freelistAddOrderedNolock (frames : ℕ) (q : Queue) (entry : ℕ) : Option Queue :=
  if entryPages q entry = 1 then
    let currLast := lastElem mainFreeListHead q
    if currLast = 0 then some (insertTail mainFreeListHead q entry)
    else if entry = currLast + entryPages q currLast * archPageSize then
      some (setPages q currLast (entryPages q currLast + 1))
    else if currLast = entry + archPageSize then
      -- The block grows downwards over the last one, whose header is left where it was.
      let q₁ := setPages q entry (entryPages q entry + entryPages q currLast)
      let q₂ := remove mainFreeListHead q₁ currLast
      some (insertTail mainFreeListHead q₂ entry)
    else some (insertTail mainFreeListHead q entry)
  else freelistScan q entry frames q.first

def freelistPopRearNolock (q : Queue) : Option (ℕ × Queue) :=
  let last := lastElem mainFreeListHead q
  if last = 0 then none
  else if entryPages q last = 1 then some (last, remove mainFreeListHead q last)
  else
    let q₁ := setPages q last (sizeDec (entryPages q last))
    some (last + archPageSize * entryPages q₁ last, q₁)

/-- The last part of `freelist_pop_front_nolock`. `entry` is compared and re-inserted also when
it has just been taken off the list. -/
def freelistRequeue (frames : ℕ) (q : Queue) (entry nextEntry : ℕ) : Option Queue :=
  if nextEntry ≠ 0 ∧ entryPages q nextEntry > entryPages q entry then
    freelistAddOrderedNolock frames (remove mainFreeListHead q entry) entry
  else some q

def freelistPopFrontNolock (frames : ℕ) (q : Queue) (numPages : ℕ) : Option (ℕ × ℕ × Queue) :=
  let entry := q.first
  if entry = 0 then none
  else
    let allocSize := min numPages (entryPages q entry)
    let nextEntry := q.mem entry
    if allocSize = entryPages q entry then
      let q₁ := remove mainFreeListHead q entry
      (freelistRequeue frames q₁ entry nextEntry).map fun q₂ => (allocSize, entry, q₂)
    else
      let q₁ := setPages q entry (entryPages q entry - allocSize)
      let ret := entry + archPageSize * entryPages q₁ entry
      (freelistRequeue frames q₁ entry nextEntry).map fun q₂ => (allocSize, ret, q₂)

inductive PageState where
  | free
  | reserved
  | taken
  deriving DecidableEq

inductive PageType where
  | anonymous
  | file
  deriving DecidableEq

structure PageMeta where
  state : PageState
  numRef : ℕ
  type : PageType
  deriving DecidableEq

def PageMeta.zero : PageMeta := ⟨.free, 0, .anonymous⟩

def sizeofPageMeta : ℕ := 24

structure PageMetaArray where
  buffer : Option ℕ
  entries : ℕ → PageMeta
  len : ℕ
  reservedStart : ℕ
  extendedLen : ℕ
  fakeEntry : PageMeta

inductive MetaRef where
  | entry (index : ℕ)
  | fake
  deriving DecidableEq

def pageMetaGet (a : PageMetaArray) (phys : ℕ) : Option MetaRef :=
  let index := phys / archPageSize
  if index < a.extendedLen then
    some (if index < a.reservedStart then .entry index else .fake)
  else none

def PageMetaArray.read (a : PageMetaArray) : MetaRef → PageMeta
  | .entry i => a.entries i
  | .fake => a.fakeEntry

/-- `n` consecutive copies of `v` from `ref` on. The fake entry is no array: what lies behind
it is other kernel data, which no caller reaches. -/
def PageMetaArray.fill (a : PageMetaArray) (ref : MetaRef) (v : PageMeta) (n : ℕ) :
    PageMetaArray :=
  match ref with
  | .entry i => { a with entries := fun j => if i ≤ j ∧ j < i + n then v else a.entries j }
  | .fake => if n = 0 then a else { a with fakeEntry := v }

def pageMetaSet (a : PageMetaArray) (pagePhys : ℕ) (tocopy : PageMeta) (numPages : ℕ) :
    Option PageMetaArray :=
  let endAddr := pagePhys + numPages * archPageSize
  let index₁ := pagePhys / archPageSize
  let index₂ := sizeDec (endAddr / archPageSize)
  if index₁ < a.len ∧ index₂ < a.len then
    (pageMetaGet a pagePhys).map fun ref => a.fill ref tocopy numPages
  else none

structure Stats where
  total : ℕ
  usable : ℕ
  reserved : ℕ
  free : ℕ
  used : ℕ
  deriving DecidableEq

structure State where
  freeList : Queue
  pageMeta : PageMetaArray
  stats : Stats
  frames : ℕ

def takenMeta : PageMeta := ⟨.taken, 1, .anonymous⟩
def reservedMeta : PageMeta := ⟨.reserved, 1, .anonymous⟩

def kmemsetZero (q : Queue) (base size : ℕ) : Queue :=
  { q with mem := fun a => if base ≤ a ∧ a < base + size then 0 else q.mem a }

def clearEntry (q : Queue) (entry : ℕ) : Queue := kmemsetZero q entry 24

def Stats.take (s : Stats) (n : ℕ) : Stats :=
  { s with
    used := sizeAdd s.used (n * archPageSize)
    free := sizeSub s.free (n * archPageSize) }

def comMmPmmAlloc (s : State) : Option (ℕ × State) := do
  let (virtRet, q) ← freelistPopRearNolock s.freeList
  let q := clearEntry q virtRet
  let phys := archHhdmToPhys virtRet
  let ref ← pageMetaGet s.pageMeta phys
  let pageMeta := s.pageMeta.read ref
  if pageMeta.state = .free ∧ pageMeta.numRef = 0 then
    some (phys, { s with
      freeList := q
      pageMeta := s.pageMeta.fill ref takenMeta 1
      stats := s.stats.take 1 })
  else none

def finishAllocation (s : State) (q : Queue) (virtRet pages : ℕ) : Option (ℕ × State) := do
  let q := clearEntry q virtRet
  let phys := archHhdmToPhys virtRet
  let pageMeta ← pageMetaSet s.pageMeta phys takenMeta pages
  some (phys, { s with
    freeList := q
    pageMeta := pageMeta
    stats := s.stats.take pages })

def comMmPmmAllocMany (s : State) (pages : ℕ) : Option (ℕ × State) :=
  if pages = 1 then comMmPmmAlloc s
  else do
    let (allocSize, virtRet, q) ← freelistPopFrontNolock s.frames s.freeList pages
    if allocSize = pages then finishAllocation s q virtRet pages else none

/-- The middle component is what `*out_alloc_size` receives; a request for one page leaves it
unwritten. -/
def comMmPmmAllocMax (s : State) (pages : ℕ) : Option (ℕ × Option ℕ × State) :=
  if pages = 1 then (comMmPmmAlloc s).map fun (phys, s) => (phys, none, s)
  else do
    let (allocSize, virtRet, q) ← freelistPopFrontNolock s.frames s.freeList pages
    let (phys, s) ← finishAllocation s q virtRet allocSize
    some (phys, some allocSize, s)

def comMmPmmAllocZero (s : State) : Option (ℕ × State) := comMmPmmAlloc s
def comMmPmmAllocManyZero (s : State) (pages : ℕ) : Option (ℕ × State) :=
  comMmPmmAllocMany s pages
def comMmPmmAllocMaxZero (s : State) (pages : ℕ) : Option (ℕ × Option ℕ × State) :=
  comMmPmmAllocMax s pages

def comMmPmmHold (a : PageMetaArray) (page : ℕ) : Option PageMetaArray := do
  let ref ← pageMetaGet a page
  let m := a.read ref
  if m.state ≠ .free then some (a.fill ref { m with numRef := sizeAdd m.numRef 1 } 1) else none

def comMmPmmIsShared (a : PageMetaArray) (page : ℕ) : Option Bool := do
  let ref ← pageMetaGet a page
  let m := a.read ref
  if m.state ≠ .free then some (decide (m.numRef > 1)) else none

/-- A count that reaches zero releases nothing yet: the code after it is still to be written. -/
def comMmPmmFree (a : PageMetaArray) (page : ℕ) : Option PageMetaArray := do
  let ref ← pageMetaGet a page
  let m := a.read ref
  if m.state = .taken then some (a.fill ref { m with numRef := sizeDec m.numRef } 1) else some a

def comMmPmmUnreserveMany (s : State) (base pages : ℕ) : Option State := do
  let ref ← pageMetaGet s.pageMeta base
  let entry := archPhysToHhdm base
  let q := setPages (kmemsetZero s.freeList entry (pages * archPageSize)) entry pages
  let q ← freelistAddOrderedNolock s.frames q entry
  some { s with
    freeList := q
    pageMeta := s.pageMeta.fill ref .zero pages
    stats := { s.stats with
      reserved := sizeSub s.stats.reserved (pages * archPageSize)
      free := sizeAdd s.stats.free (pages * archPageSize) } }

inductive MemmapType where
  | usable
  | reserved
  | acpiReclaimable
  | acpiNvs
  | badMemory
  | bootloaderReclaimable
  | kernelAndModules
  | framebuffer
  deriving DecidableEq

structure MemmapEntry where
  base : ℕ
  length : ℕ
  type : MemmapType
  deriving DecidableEq

def MemmapEntry.top (e : MemmapEntry) : ℕ := e.base + e.length

def archMemmapIsUsable (e : MemmapEntry) : Bool := e.type = .usable
def archMemmapIsReclaimable (e : MemmapEntry) : Bool :=
  e.type = .bootloaderReclaimable ∨ e.type = .kernelAndModules

structure Sizing where
  highestAddr : ℕ
  highestIndexedAddr : ℕ
  freeList : Queue
  stats : Stats

def sizingStep (z : Sizing) (e : MemmapEntry) : Sizing :=
  let z := { z with
    highestAddr := max z.highestAddr e.top
    highestIndexedAddr :=
      if archMemmapIsReclaimable e then max z.highestIndexedAddr e.top
      else z.highestIndexedAddr
    stats := { z.stats with total := sizeAdd z.stats.total e.length } }
  if archMemmapIsUsable e then
    { z with
      highestIndexedAddr := max z.highestIndexedAddr e.top
      freeList := kmemsetZero z.freeList (archPhysToHhdm e.base) e.length
      stats := { z.stats with usable := sizeAdd z.stats.usable e.length } }
  else { z with stats := { z.stats with reserved := sizeAdd z.stats.reserved e.length } }

def pageMetaSize (highestIndexedAddr : ℕ) : ℕ :=
  highestIndexedAddr / archPageSize * sizeofPageMeta
def pageMetaPages (highestIndexedAddr : ℕ) : ℕ := pagesFor (pageMetaSize highestIndexedAddr)
def pageMetaAlignedSize (highestIndexedAddr : ℕ) : ℕ :=
  pageMetaPages highestIndexedAddr * archPageSize

def addFreeBlock (s : State) (base pages : ℕ) : Option State := do
  let entry := archPhysToHhdm base
  let q ← freelistAddOrderedNolock s.frames (setPages s.freeList entry pages) entry
  some { s with freeList := q }

def placePageMeta (hi ha : ℕ) (s : State) (e : MemmapEntry) : Option State := do
  let pageMeta := { s.pageMeta with
    buffer := some e.base
    entries := fun _ => .zero
    len := hi / archPageSize
    reservedStart := hi / archPageSize
    extendedLen := ha / archPageSize }
  let pageMeta ← pageMetaSet pageMeta e.base reservedMeta (pageMetaPages hi)
  some { s with
    pageMeta := pageMeta
    stats := { s.stats with
      usable := sizeSub s.stats.usable (pageMetaAlignedSize hi)
      reserved := sizeAdd s.stats.reserved (pageMetaAlignedSize hi) } }

def buildStep (hi ha : ℕ) (s : State) (e : MemmapEntry) : Option State :=
  if ¬ archMemmapIsUsable e then some s
  else if s.pageMeta.buffer = none ∧ e.length ≥ pageMetaAlignedSize hi then do
    let s ← placePageMeta hi ha s e
    if e.length ≥ pageMetaAlignedSize hi + archPageSize then
      addFreeBlock s (e.base + pageMetaAlignedSize hi)
        ((e.length - pageMetaAlignedSize hi) / archPageSize)
    else some s
  else addFreeBlock s e.base (e.length / archPageSize)

/-- One round of the third loop, with the strict comparison of the source. -/
def reserveStep (hi : ℕ) (a : PageMetaArray) (e : MemmapEntry) : Option PageMetaArray :=
  if ¬ archMemmapIsUsable e ∧ e.top < hi then
    pageMetaSet a e.base reservedMeta (pagesFor e.length)
  else some a

def bootQueue (mem : ℕ → ℕ) : Queue := init mainFreeListHead ⟨mem, 0, 0⟩

def sizing (mem : ℕ → ℕ) (memmap : List MemmapEntry) : Sizing :=
  memmap.foldl sizingStep ⟨0, 0, bootQueue mem, ⟨0, 0, 0, 0, 0⟩⟩

def sized (mem : ℕ → ℕ) (memmap : List MemmapEntry) : State :=
  let z := sizing mem memmap
  { freeList := z.freeList
    pageMeta := ⟨none, fun _ => .zero, 0, 0, 0, reservedMeta⟩
    stats := { z.stats with total := z.highestAddr }
    frames := z.highestAddr / archPageSize }

def comMmPmmInit (mem : ℕ → ℕ) (memmap : List MemmapEntry) : Option State := do
  let z := sizing mem memmap
  let s ← memmap.foldlM (buildStep z.highestIndexedAddr z.highestAddr) (sized mem memmap)
  let a ← memmap.foldlM (reserveStep z.highestIndexedAddr) s.pageMeta
  some { s with pageMeta := a, stats := { s.stats with free := s.stats.usable } }

end PhysicalMemory
