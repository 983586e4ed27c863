import Mathlib.Algebra.Ring.Int.Defs
import Mathlib.Data.List.Flatten
import SalernosKernel.FreeLinks
import SalernosKernel.PhysicalMemoryRuns

/-! # Caches of physical pages

`com/mm/pmmcache.c`: a cache is a list of runs of pages, and a run holds its length and the link in
its first page. Counters are integers that do not wrap around. -/
namespace PmmCache

open BlockList (Layout Sorted popFor popFront)
open FreeLinks (Linked)
open Function
open List
open Spans
open PhysicalMemory (Threads comMmPmmAllocMaxZero comMmPmmInit freeBlocks)

structure Page where
  next : Option ℕ
  len : ℤ
  rest : ℕ → UInt8

def Page.zero : Page := ⟨none, 0, fun _ => 0⟩

structure Run extends Span where
  reported : ℕ

/-- The cache on top of the allocator; `owned` are the pages it ever got, `taken` those that are
handed out. -/
structure State where
  mem : ℕ → Page
  pool : Option ℕ
  availPages : ℤ
  pmm : PhysicalMemory.State
  owned : List ℕ := []
  taken : List ℕ := []

def pagesOf (pools : List Span) : List ℕ := pools.flatMap fun r => range' r.start r.size

/-- The rounds of `pmm_cache_new_pool`, each of which asks for all the pages; `stale` is what
`curr_size` holds if it is not written. -/
def newRuns (pages stale : ℕ) :
    ℕ → ℕ → PhysicalMemory.State → Option (List Run × PhysicalMemory.State)
  | 0, _, _ => none
  | fuel + 1, allocated, pmm =>
    if pages ≤ allocated then some ([], pmm)
    else
      (comMmPmmAllocMaxZero pmm pages).bind fun (phys, out, pmm) =>
        (newRuns pages stale fuel (allocated + out.getD stale) pmm).map fun (runs, pmm) =>
          (⟨⟨phys / archPageSize, out.getD 1⟩, out.getD stale⟩ :: runs, pmm)

def linkRuns : List Run → (ℕ → Page) → Option ℕ × (ℕ → Page)
  | [], mem => (none, mem)
  | curr :: runs, mem =>
    let (next, mem) := linkRuns runs mem
    (some curr.start,
      update mem curr.start { mem curr.start with next := next, len := curr.reported })

def State.link (s : State) (pages : ℕ) (runs : List Run) (pmm : PhysicalMemory.State) : State :=
  { s with
    mem := (linkRuns runs s.mem).2
    pool := (linkRuns runs s.mem).1
    availPages := pages
    pmm := pmm
    owned := pagesOf (runs.map Run.toSpan) ++ s.owned }

/-- With the counter, which its callers set to what they asked for. No result is a failed assertion
of the allocator, which has fewer pages than rounds. -/
def pmmCacheNewPool (pages stale : ℕ) (s : State) : Option State :=
  (newRuns pages stale (s.pmm.frames + 1) 0 s.pmm).map fun (runs, pmm) => s.link pages runs pmm

def comMmPmmCacheInit (initSize stale : ℕ) (mem : ℕ → Page) (pmm : PhysicalMemory.State) :
    Option State :=
  pmmCacheNewPool initSize stale { mem := mem, pool := none, availPages := 0, pmm := pmm }

def refill (poolSize stale : ℕ) (s : State) : Option State :=
  match s.pool with
  | some _ => some s
  | none => pmmCacheNewPool poolSize stale s

def takePage (s : State) (p : ℕ) : State :=
  let pool := s.mem p
  let len := pool.len - 1
  let mem := if len = 0 then s.mem
    else update s.mem (p + 1) { s.mem (p + 1) with next := pool.next, len := len }
  { s with
    mem := update mem p { pool with next := none, len := 0 }
    pool := if len = 0 then pool.next else some (p + 1)
    availPages := s.availPages - 1
    taken := p :: s.taken }

/-- No result is a failed assertion. -/
def comMmPmmCacheAlloc (poolSize stale : ℕ) (s : State) : Option (ℕ × State) :=
  if s.pool = none ∧ s.availPages ≠ 0 then none
  else (refill poolSize stale s).bind fun s => s.pool.map fun p => (p, takePage s p)

def comMmPmmCacheFree (s : State) (p : ℕ) : State :=
  { s with
    mem := update s.mem p { Page.zero with next := s.pool, len := 1 }
    pool := some p
    availPages := s.availPages + 1
    taken := s.taken.erase p }

inductive Event where
  | alloc (stale : ℕ)
  | free (p : ℕ)
  | write (p : ℕ) (page : Page)
  /-- The allocator has served its other callers. -/
  | elsewhere (pmm : PhysicalMemory.State)

def next (poolSize : ℕ) (s : State) : Event → Option State
  | .alloc stale => (comMmPmmCacheAlloc poolSize stale s).map Prod.snd
  | .free p => if p ∈ s.taken then some (comMmPmmCacheFree s p) else none
  | .write p page => if p ∈ s.taken then some { s with mem := update s.mem p page } else none
  | .elsewhere pmm => some { s with pmm := pmm }

/-- The free list is in one piece, and no page of the cache is on it. -/
structure FreeList (pmm : PhysicalMemory.State) (owned : List ℕ) (bs : List Span) : Prop where
  threads : Threads pmm.freeList bs
  layout : Layout pmm.frames bs
  apart : ∀ p ∈ owned, cover bs p = 0

/-- The free list is ordered and its first block has the pages, which are zero. A single page is not
counted. -/
structure Refillable (pages : ℕ) (s : State) : Prop where
  many : pages ≠ 1
  sorted : Sorted (freeBlocks s.pmm)
  first : 0 < pages → ∃ b ∈ (freeBlocks s.pmm).head?, pages ≤ b.size
  zero : ∀ p, 0 < cover (freeBlocks s.pmm) p → s.mem p = .zero

def ExactRefills (poolSize : ℕ) (s : State) : Event → Prop
  | .alloc _ => s.pool = none → Refillable poolSize s
  | .free _ | .write .. => True
  | .elsewhere pmm => ∃ bs, FreeList pmm s.owned bs

/-- The runs on a list: their first pages are linked and hold their lengths, and apart from that all
their pages are zero. -/
structure Listed (mem : ℕ → Page) (head : Option ℕ) (pools : List Span) : Prop where
  linked : Linked (fun p => (mem p).next) head (pools.map Span.start)
  len : ∀ r ∈ pools, (mem r.start).len = r.size ∧ 0 < r.size
  clean : ∀ p ∈ pagesOf pools, (mem p).rest = Page.zero.rest

structure Counted (s : State) (pools : List Span) : Prop where
  listed : Listed s.mem s.pool pools
  avail : s.availPages = (pools.map Span.size).sum
  once : (pagesOf pools ++ s.taken).Nodup
  owned : pagesOf pools ++ s.taken ⊆ s.owned
  freeList : ∃ bs, FreeList s.pmm s.owned bs

variable {mem mem' : ℕ → Page} {head : Option ℕ} {runs : List Run} {s s' : State}
  {pools bs : List Span} {n p pages stale poolSize : ℕ} {pmm pmm' : PhysicalMemory.State}

theorem pagesOf_cons (r : Span) (pools : List Span) :
    pagesOf (r :: pools) = range' r.start r.size ++ pagesOf pools := rfl

theorem head_mem_pagesOf {r : Span} (hr : r ∈ pools) (hpos : 0 < r.size) : r.start ∈ pagesOf pools :=
  mem_flatMap.mpr ⟨r, hr, mem_range'_1.mpr ⟨le_rfl, Nat.lt_add_of_pos_right hpos⟩⟩

theorem Listed.congr (h : Listed mem head pools) (hsm : ∀ q ∈ pagesOf pools, mem' q = mem q) :
    Listed mem' head pools := by
  have hhd : ∀ r ∈ pools, mem' r.start = mem r.start :=
    fun r hr => hsm _ (head_mem_pagesOf hr (h.len r hr).2)
  refine ⟨h.linked.congr fun q hq => ?_, fun r hr => ?_, fun q hq => ?_⟩
  · obtain ⟨r, hr, rfl⟩ := mem_map.mp hq
    rw [hhd r hr]
  · rw [hhd r hr]
    exact h.len r hr
  · rw [hsm q hq, h.clean q hq]

theorem Listed.push (h : Listed mem (mem' p).next pools)
    (hsm : ∀ q ∈ pagesOf pools, mem' q = mem q) (hln : (mem' p).len = n) (hpos : 0 < n)
    (hcl : ∀ q ∈ range' p n, (mem' q).rest = Page.zero.rest) :
    Listed mem' (some p) (⟨p, n⟩ :: pools) := by
  have hrs := h.congr hsm
  refine ⟨⟨rfl, hrs.linked⟩, fun r hr => ?_, fun q hq => ?_⟩
  · rcases mem_cons.mp hr with rfl | hr
    · exact ⟨hln, hpos⟩
    · exact hrs.len r hr
  · rcases mem_append.mp hq with hq | hq
    · exact hcl q hq
    · exact hrs.clean q hq

theorem linkRuns_listed (hpos : 0 < n) (hz : ∀ q ∈ range' p n, mem q = .zero) :
    Listed (linkRuns [⟨⟨p, n⟩, n⟩] mem).2 (some p) [⟨p, n⟩] := by
  have hsl : (linkRuns [⟨⟨p, n⟩, n⟩] mem).2 p = ⟨none, n, (mem p).rest⟩ := update_self ..
  have hnil : Listed mem ((linkRuns [⟨⟨p, n⟩, n⟩] mem).2 p).next [] :=
    hsl ▸ ⟨rfl, (fun r hr => by cases hr), fun q hq => by cases hq⟩
  refine hnil.push (fun q hq => by cases hq) (hsl ▸ rfl) hpos fun q hq => ?_
  by_cases h : q = p
  · rw [h, hsl, ← h, hz q hq]
  · rw [← hz q hq]
    exact congrArg Page.rest (update_of_ne h ..)

theorem count_pagesOf (pools : List Span) (p : ℕ) : (pagesOf pools).count p = cover pools p := by
  induction pools with
  | nil => rfl
  | cons r pools ih =>
    rw [pagesOf_cons, count_append, ih, cover_cons, Span.hits, Span.stop]
    split_ifs with hin
    · rw [count_eq_one_of_mem (nodup_range' ..) (mem_range'_1.mpr hin)]
    · rw [count_eq_zero.mpr fun hp => hin (mem_range'_1.mp hp)]

theorem mem_pagesOf : p ∈ pagesOf pools ↔ 0 < cover pools p := by
  rw [← count_pagesOf, count_pos_iff]

/-- One round gets the pages, from the first block of the free list. -/
theorem newRuns_spec {fuel : ℕ} (hthreads : Threads pmm.freeList bs)
    (hlayout : Layout pmm.frames bs) (hsorted : Sorted bs) (hmany : pages ≠ 1)
    (hfirst : 0 < pages → ∃ b ∈ bs.head?, pages ≤ b.size)
    (h : newRuns pages stale fuel 0 pmm = some (runs, pmm')) :
    (pages = 0 ∧ runs = [] ∨ 0 < pages ∧ ∃ p, runs = [⟨⟨p, pages⟩, pages⟩]) ∧
    ∃ cs, Threads pmm'.freeList cs ∧ Layout pmm'.frames cs ∧
      ∀ p, cover bs p = cover (runs.map Run.toSpan) p + cover cs p := by
  cases fuel with
  | zero => cases h
  | succ fuel =>
    rw [newRuns] at h
    split_ifs at h with hdone
    · cases h
      exact ⟨.inl ⟨Nat.le_zero.mp hdone, rfl⟩, bs, hthreads, hlayout, fun p => (Nat.zero_add _).symm⟩
    · have hpos : 0 < pages := Nat.lt_of_not_le hdone
      obtain ⟨⟨phys, out, pmm₁⟩, hask, h⟩ := Option.bind_eq_some_iff.mp h
      obtain ⟨⟨rest, _⟩, hrest, h⟩ := Option.map_eq_some_iff.mp h
      cases h
      obtain ⟨got, cs, hpop, rfl, hsize, hdel⟩ := PhysicalMemory.comMmPmmAllocMax_refines hthreads
        hlayout hpos (fun _ => hsorted.frontIntact pages) hask
      have hout : ∃ n, out = some n := by
        unfold comMmPmmAllocMaxZero PhysicalMemory.comMmPmmAllocMax at hask
        rw [if_neg hmany] at hask
        simp only [Option.bind_eq_bind, Option.bind_eq_some_iff] at hask
        obtain ⟨_, -, _, -, heq⟩ := hask
        simp only [Option.some.injEq, Prod.mk.injEq] at heq
        exact ⟨_, heq.2.1.symm⟩
      obtain ⟨n, rfl⟩ := hout
      have hnext := PhysicalMemory.popFor_layout hlayout hpos hpop
      have hcover := fun p => BlockList.popFor_cover hlayout.positive hpop (p := p)
      rw [popFor, if_neg hmany] at hpop
      obtain ⟨b, hb, hge⟩ := hfirst hpos
      obtain ⟨bs, rfl⟩ := head?_eq_some_iff.mp hb
      obtain rfl : n = pages := hsize.symm.trans (BlockList.popFront_size hge hpop)
      -- the second round has nothing left to ask for
      have hend : rest = [] ∧ pmm' = pmm₁ := by
        cases fuel with
        | zero => cases hrest
        | succ fuel =>
          rw [newRuns, if_pos (by simp)] at hrest
          cases hrest
          exact ⟨rfl, rfl⟩
      obtain ⟨rfl, rfl⟩ := hend
      have hgot : (⟨got.start * archPageSize / archPageSize, n⟩ : Span) = got := by
        rw [Nat.mul_div_cancel _ (by decide), ← show got.size = n from hsize]
      refine ⟨.inr ⟨hpos, _, rfl⟩, cs, hdel.threads, ?_, fun p => ?_⟩
      · exact hdel.frames ▸ hnext.of_cover_le (BlockList.Positive.cons.mp hnext.positive).2
          fun p => by rw [cover_cons]; omega
      · rw [hcover p, map_cons, cover_cons]
        simp only [Option.getD_some, hgot]
        rfl

theorem counted_newPool (hfree : ∃ bs, FreeList s.pmm s.owned bs) (hok : Refillable pages s)
    (htaken : s.taken.Nodup) (howned : s.taken ⊆ s.owned)
    (h : pmmCacheNewPool pages stale s = some s') :
    s'.taken = s.taken ∧ ∃ pools, Counted s' pools ∧ (0 < pages → pools ≠ []) := by
  obtain ⟨bs, hbs⟩ := hfree
  obtain ⟨⟨runs, pmm⟩, hruns, rfl⟩ := Option.map_eq_some_iff.mp h
  have hblocks := hbs.threads.freeBlocks_eq hbs.layout.length_le
  obtain ⟨hone, cs, hcs, hlcs, hcover⟩ := newRuns_spec hbs.threads hbs.layout
    (hblocks ▸ hok.sorted) hok.many (hblocks ▸ hok.first) hruns
  have hlisted : ∀ p ∈ pagesOf (runs.map Run.toSpan), 0 < cover bs p := fun p hp => by
    have := hcover p
    have := mem_pagesOf.mp hp
    omega
  have hnew : (pagesOf (runs.map Run.toSpan)).Nodup ∧
      Listed (linkRuns runs s.mem).2 (linkRuns runs s.mem).1 (runs.map Run.toSpan) ∧
      ((runs.map Run.toSpan).map Span.size).sum = pages := by
    rcases hone with ⟨rfl, rfl⟩ | ⟨hpos, p, rfl⟩
    · exact ⟨nodup_nil, ⟨rfl, (fun r hr => by cases hr), fun p hp => by cases hp⟩, rfl⟩
    · refine ⟨?_, linkRuns_listed hpos fun q hq => ?_, Nat.add_zero _⟩
      · change (range' p pages ++ []).Nodup
        rw [append_nil]
        exact nodup_range' ..
      · exact hok.zero q (hblocks.symm ▸ hlisted q (mem_append_left _ hq))
  obtain ⟨hnodup, hlist, hsum⟩ := hnew
  refine ⟨rfl, runs.map Run.toSpan, ⟨hlist, congrArg Nat.cast hsum.symm, ?_, ?_, cs, hcs, hlcs,
    fun p hp => ?_⟩, fun hpos => ?_⟩
  · refine nodup_append.mpr ⟨hnodup, htaken, fun p hp q hq heq => ?_⟩
    exact (hlisted p hp).ne' (hbs.apart p (howned (heq ▸ hq)))
  · exact append_subset.mpr ⟨subset_append_left _ _,
      fun p hp => mem_append_right _ (howned hp)⟩
  · have := hcover p
    have := hbs.layout.once p
    rcases mem_append.mp hp with hp | hp
    · have := mem_pagesOf.mp hp
      omega
    · have := hbs.apart p hp
      omega
  · rintro hnil
    rw [hnil] at hsum
    exact hpos.ne hsum

theorem Counted.take (h : Counted s (⟨p, n⟩ :: pools)) :
    p ∉ s.taken ∧ (takePage s p).mem p = .zero ∧ ∃ pools', Counted (takePage s p) pools' := by
  obtain ⟨hln, hpos⟩ : (s.mem p).len = n ∧ 0 < n := h.listed.len _ mem_cons_self
  obtain ⟨m, rfl⟩ : ∃ m, n = m + 1 := ⟨n - 1, by omega⟩
  have htl : Listed s.mem (s.mem p).next pools :=
    ⟨h.listed.linked.2, fun r hr => h.listed.len r (mem_cons_of_mem _ hr),
      fun q hq => h.listed.clean q (mem_append_right _ hq)⟩
  have hon : (range' p (m + 1) ++ pagesOf pools ++ s.taken).Nodup := h.once
  rw [range'_succ, cons_append, cons_append, nodup_cons] at hon
  obtain ⟨hnt, hon⟩ := hon
  have hne : ∀ q ∈ range' (p + 1) m ++ pagesOf pools, q ≠ p :=
    fun q hq heq => hnt (mem_append_left _ (heq ▸ hq : p ∈ _))
  have hls : (range' (p + 1) m ++ pagesOf pools ++ (p :: s.taken)).Nodup :=
    perm_middle.nodup_iff.mpr (nodup_cons.mpr ⟨hnt, hon⟩)
  have hav : s.availPages - 1 = m + ((pools.map Span.size).sum : ℕ) := by
    rw [h.avail, map_cons, sum_cons]
    push_cast
    omega
  have how : range' (p + 1) m ++ pagesOf pools ++ (p :: s.taken) ⊆ s.owned := fun q hq => by
    apply h.owned
    change q ∈ range' p (m + 1) ++ pagesOf pools ++ s.taken
    rw [range'_succ, cons_append, cons_append]
    exact perm_middle.mem_iff.mp hq
  refine ⟨fun hp => hnt (mem_append_right _ hp), ?_, ?_⟩
  · have hsl : (takePage s p).mem p = ⟨none, 0, (s.mem p).rest⟩ := update_self ..
    rw [hsl, h.listed.clean p (head_mem_pagesOf mem_cons_self hpos)]
    rfl
  · cases m with
    | zero =>
      have hed : (s.mem p).len - 1 = 0 := by
        rw [hln]
        rfl
      refine ⟨pools, ?_, (by simpa using hav : s.availPages - 1 = _), hls, how, h.freeList⟩
      rw [takePage]
      rw [if_pos hed, if_pos hed]
      exact htl.congr fun q hq => update_of_ne (hne q (mem_append_right _ hq)) ..
    | succ m =>
      have hmr : (s.mem p).len - 1 ≠ 0 := by
        rw [hln]
        push_cast
        omega
      refine ⟨⟨p + 1, m + 1⟩ :: pools, ?_, (by simpa using hav : s.availPages - 1 = _), hls, how,
        h.freeList⟩
      -- The second page of the run becomes its first one.
      have hme : ∀ q, q ≠ p → (takePage s p).mem q = if q = p + 1 then
          ⟨(s.mem p).next, (s.mem p).len - 1, (s.mem (p + 1)).rest⟩ else s.mem q := by
        intro q hq
        rw [takePage]
        dsimp only
        rw [update_of_ne hq, if_neg hmr, update_apply]
      have hnx := hme (p + 1) (Nat.succ_ne_self p)
      rw [if_pos rfl] at hnx
      have hpl : (takePage s p).pool = some (p + 1) := if_neg hmr
      rw [hpl]
      refine (hnx ▸ htl : Listed s.mem ((takePage s p).mem (p + 1)).next pools).push
        (fun q hq => ?_) ?_ (Nat.succ_pos m) fun q hq => ?_
      · rw [hme q (hne q (mem_append_right _ hq)), if_neg]
        exact fun heq => (nodup_append.mp (nodup_append.mp hon).1).2.2 (p + 1)
          (mem_range'_1.mpr ⟨le_rfl, by omega⟩) q hq heq.symm
      · rw [hnx, hln]
        push_cast
        omega
      · have hcl : (s.mem q).rest = Page.zero.rest := by
          apply h.listed.clean q (mem_append_left _ (mem_range'_1.mpr _))
          have hrg := mem_range'_1.mp hq
          change p ≤ q ∧ q < p + (m + 1 + 1)
          omega
        rw [hme q (hne q (mem_append_left _ hq))]
        split_ifs with hq'
        · rw [← hcl, hq']
        · exact hcl

section

variable (h : Counted s pools)

include h

theorem Counted.free (hp : p ∈ s.taken) :
    Counted (comMmPmmCacheFree s p) (⟨p, 1⟩ :: pools) := by
  have hnt : ∀ q ∈ pagesOf pools, q ≠ p :=
    fun q hq heq => (nodup_append.mp h.once).2.2 q hq p hp heq
  have hsl : (comMmPmmCacheFree s p).mem p = { Page.zero with next := s.pool, len := 1 } :=
    update_self ..
  have hperm : (pagesOf (⟨p, 1⟩ :: pools) ++ s.taken.erase p).Perm (pagesOf pools ++ s.taken) :=
    (perm_middle.symm).trans ((perm_cons_erase hp).symm.append_left _)
  refine ⟨?_, ?_, hperm.nodup_iff.mpr h.once, fun q hq => h.owned (hperm.subset hq), h.freeList⟩
  · refine (hsl ▸ h.listed : Listed s.mem _ _).push (fun q hq => update_of_ne (hnt q hq) ..)
      (hsl ▸ rfl) one_pos fun q hq => ?_
    obtain rfl : q = p := by simpa using hq
    rw [hsl]
  · rw [comMmPmmCacheFree, h.avail, map_cons, sum_cons]
    push_cast
    omega

theorem Counted.write (hp : p ∈ s.taken) (page : Page) :
    Counted { s with mem := update s.mem p page } pools :=
  ⟨h.listed.congr fun q hq => update_of_ne
    (fun heq => (nodup_append.mp h.once).2.2 q hq p hp heq) .., h.avail, h.once, h.owned, h.freeList⟩

theorem Counted.pool_none (hno : s.pool = none) : pools = [] := by
  cases pools with
  | nil => rfl
  | cons r pools =>
    have hh := h.listed.linked.1
    rw [hno] at hh
    cases hh

theorem Counted.assertion (hno : s.pool = none) : s.availPages = 0 := by
  rw [h.avail, h.pool_none hno]
  rfl

theorem Counted.refill (hpos : 0 < poolSize) (hok : ExactRefills poolSize s (.alloc stale))
    (href : refill poolSize stale s = some s') :
    s'.taken = s.taken ∧ ∃ r pools', Counted s' (r :: pools') := by
  rw [PmmCache.refill] at href
  cases hpool : s.pool with
  | some p =>
    rw [hpool] at href
    cases href
    cases pools with
    | nil => exact absurd (hpool.symm.trans h.listed.linked) (Option.some_ne_none p)
    | cons r pools => exact ⟨rfl, r, pools, h⟩
  | none =>
    rw [hpool] at href
    obtain ⟨htaken, pools', hnew, hne⟩ := counted_newPool h.freeList (hok hpool)
      (nodup_append.mp h.once).2.1 (append_subset.mp h.owned).2 href
    obtain ⟨r, rest, rfl⟩ := exists_cons_of_ne_nil (hne hpos)
    exact ⟨htaken, r, rest, hnew⟩

theorem Counted.alloc {s₁ : State} (hpos : 0 < poolSize)
    (hok : ExactRefills poolSize s (.alloc stale)) (href : PmmCache.refill poolSize stale s = some s₁) :
    ∃ p s', comMmPmmCacheAlloc poolSize stale s = some (p, s') ∧ p ∉ s.taken ∧ s'.mem p = .zero ∧
      ∃ pools', Counted s' pools' := by
  obtain ⟨htaken, ⟨p, n⟩, pools', hnew⟩ := h.refill hpos hok href
  obtain ⟨hfresh, hzero, hafter⟩ := hnew.take
  refine ⟨p, _, ?_, htaken ▸ hfresh, hzero, hafter⟩
  have hpool : s₁.pool = some p := hnew.listed.linked.1
  rw [comMmPmmCacheAlloc, if_neg fun hfail => hfail.2 (h.assertion hfail.1), href, Option.bind_some,
    hpool, Option.map_some]

theorem Counted.next {e : Event} (hpos : 0 < poolSize)
    (hok : ExactRefills poolSize s e) (hnext : next poolSize s e = some s') :
    ∃ pools', Counted s' pools' := by
  cases e with
  | alloc stale =>
    obtain ⟨⟨p, s₂⟩, halloc, rfl⟩ := Option.map_eq_some_iff.mp hnext
    have hsome : ∃ s₁, PmmCache.refill poolSize stale s = some s₁ := by
      rw [comMmPmmCacheAlloc] at halloc
      split_ifs at halloc
      obtain ⟨s₁, href, -⟩ := Option.bind_eq_some_iff.mp halloc
      exact ⟨s₁, href⟩
    obtain ⟨s₁, href⟩ := hsome
    obtain ⟨p', s₃, halloc', -, -, hafter⟩ := h.alloc hpos hok href
    rw [halloc] at halloc'
    cases halloc'
    exact hafter
  | free p =>
    obtain ⟨hp, hnext⟩ := Option.ite_none_right_eq_some.mp hnext
    cases hnext
    exact ⟨_, h.free hp⟩
  | write p page =>
    obtain ⟨hp, hnext⟩ := Option.ite_none_right_eq_some.mp hnext
    cases hnext
    exact ⟨_, h.write hp page⟩
  | elsewhere pmm =>
    cases hnext
    exact ⟨pools, h.listed, h.avail, h.once, h.owned, hok⟩

end

/-- If each refill finds an ordered free list whose first block has what is asked for, the counter
is the length of the list, so that the assertion holds, and each allocation for which the allocator
has the pages returns a page of zeroes that is not handed out. -/
theorem cache_counts {initSize poolSize stale : ℕ} {mem : ℕ → Page} {pmm : PhysicalMemory.State}
    {bs : List Span} {s₀ s : State} (hpos : 1 ≤ poolSize) (hfree : FreeList pmm [] bs)
    (hinit : Refillable initSize { mem := mem, pool := none, availPages := 0, pmm := pmm })
    (hstart : comMmPmmCacheInit initSize stale mem pmm = some s₀)
    (h : Runs.Reaches (next poolSize) (ExactRefills poolSize) s₀ s) :
    (∃ pools, Listed s.mem s.pool pools ∧ s.availPages = (pools.map Span.size).sum) ∧
    (s.pool = none → s.availPages = 0) ∧ s.taken.Nodup ∧
    ∀ stale s₁, ExactRefills poolSize s (.alloc stale) → refill poolSize stale s = some s₁ →
      ∃ p s', comMmPmmCacheAlloc poolSize stale s = some (p, s') ∧ p ∉ s.taken ∧
        s'.mem p = .zero := by
  obtain ⟨pools, hs⟩ : ∃ pools, Counted s pools := by
    apply h.invariant fun s => ∃ pools, Counted s pools
    · obtain ⟨-, pools, hnew, -⟩ :=
        counted_newPool ⟨bs, hfree⟩ hinit nodup_nil (nil_subset _) hstart
      exact ⟨pools, hnew⟩
    · rintro s e s' ⟨pools, hs⟩ hok hnext
      exact hs.next hpos hok hnext
  refine ⟨⟨pools, hs.listed, hs.avail⟩, hs.assertion, (nodup_append.mp hs.once).2.1, ?_⟩
  intro stale s₁ hok href
  obtain ⟨p, s', halloc, hfresh, hzero, -⟩ := hs.alloc hpos hok href
  exact ⟨p, s', halloc, hfresh, hzero⟩

/-- Memory with a free block of three pages and one of `n`. -/
def sampleMap (n : ℕ) : List PhysicalMemory.MemmapEntry :=
  [⟨0x1000, 0x4000, .usable⟩, ⟨0x10000, n * 0x1000, .usable⟩]

/-- Of three pages, two are taken and one is given back. -/
theorem cache_counts_blocks : ∃ s : State, s.taken = [3] ∧ s.pool = some 2 ∧
    ∃ pools, Listed s.mem s.pool pools ∧ s.availPages = (pools.map Span.size).sum := by
  have hrun : ((comMmPmmInit (fun _ => 0) (sampleMap 1)).bind fun pmm =>
      (comMmPmmCacheInit 3 0 (fun _ => .zero) pmm).bind fun s =>
        if s.pool = none then none else (next 3 s (.alloc 0)).bind fun s =>
          if s.pool = none then none else (next 3 s (.alloc 0)).bind fun s =>
            (next 3 s (.free 2)).map fun s => (s.taken, s.pool)) = some ([3], some 2) := by
    decide +kernel
  obtain ⟨pmm, hboot, hrun⟩ := Option.bind_eq_some_iff.mp hrun
  obtain ⟨s₀, hstart, hrun⟩ := Option.bind_eq_some_iff.mp hrun
  split_ifs at hrun with hpool₀
  obtain ⟨s₁, hnext₁, hrun⟩ := Option.bind_eq_some_iff.mp hrun
  split_ifs at hrun with hpool₁
  obtain ⟨s₂, hnext₂, hrun⟩ := Option.bind_eq_some_iff.mp hrun
  obtain ⟨s₃, hnext₃, heq⟩ := Option.map_eq_some_iff.mp hrun
  have hinv := PhysicalMemory.boot_invariant ⟨by decide, by decide, by decide⟩ hboot
  have hblocks : freeBlocks pmm = [⟨2, 3⟩, ⟨16, 1⟩] := hinv.freeBlocks_eq.trans (by decide)
  have hok {s : State} (hpool : ¬ s.pool = none) : ExactRefills 3 s (.alloc 0) :=
    fun h => absurd h hpool
  exact ⟨s₃, congrArg Prod.fst heq, congrArg Prod.snd heq, (cache_counts (by decide)
    ⟨hinv.threads, hinv.layout.left, by simp⟩
    ⟨(by decide : 3 ≠ 1), by rw [hblocks]; decide, fun _ => ⟨⟨2, 3⟩, by rw [hblocks]; rfl, le_rfl⟩,
      fun _ _ => rfl⟩
    hstart
    (.step (.step (.step .start (hok hpool₀) hnext₁) (hok hpool₁) hnext₂)
      (show ExactRefills 3 s₂ (.free 2) from trivial) hnext₃)).1⟩

/-- Four pages are asked for, and the free list gives three and then three. -/
theorem cache_miscounts : ((comMmPmmInit (fun _ => 0) (sampleMap 3)).bind fun pmm =>
    (comMmPmmCacheInit 4 0 (fun _ => .zero) pmm).bind fun s =>
      (replicate 6 (.alloc 0)).foldlM (next 4) s).map (fun s => (s.pool, s.availPages)) =
    some (none, -2) := by
  decide +kernel

end PmmCache
