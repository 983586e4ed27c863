import SalernosKernel.CopyOnWrite
import SalernosKernel.PageFaultPrefault
import SalernosKernel.PageTableDuplicate
import SalernosKernel.PhysicalMemory

/-! # Forked address spaces

User stores to address spaces that `arch_mmu_duplicate_table` has made from one another. A store
to a protected private page goes through the page-fault handler first. -/
namespace ForkMemory

open PageTable PageTableDuplicate PageFaultPrefault List Option CopyOnWrite RadixTable
open PhysicalMemory
open RadixTable (walk)
open Function
open BitVec (ofNat)

structure System where
  pageMeta : PageMetaArray
  mem : ℕ → BitVec 8
  tables : List Pagetable

def takeFree (a : PageMetaArray) (phys : ℕ) : Option PageMetaArray := do
  let ref ← pageMetaGet a phys
  let pageMeta := a.read ref
  if pageMeta.state = .free ∧ pageMeta.numRef = 0 then some (a.fill ref takenMeta 1) else none

def takeMany (a : PageMetaArray) (phys pages : ℕ) : Option PageMetaArray :=
  if pages = 1 then takeFree a phys else pageMetaSet a phys takenMeta pages

def kmemcpy (mem : ℕ → BitVec 8) (dst src n : ℕ) : ℕ → BitVec 8 :=
  fun a => if dst ≤ a ∧ a < dst + n then mem (src + (a - dst)) else mem a

def mapPages (pt : Pagetable) (virt : ℕ) (phys flags : Entry) (numPages : ℕ) : Pagetable :=
  (List.range numPages).foldl (fun pt i =>
    archMmuMap pt (virt + archPageSize * i) (phys + BitVec.ofNat 64 (archPageSize * i)) flags) pt

/-- A fault of a user thread on table `i`, which is `pt`. `newPhys` is what the allocator returns
if it is called; a fault that no attribute covers raises a signal. -/
def comMmVmmHandleFault (s : System) (i : ℕ) (pt : Pagetable) (c : FaultCall) (newPhys : Entry) :
    Option System :=
  let faultVirtPage := c.virt.toNat / archPageSize * archPageSize
  let faultPhysPage := c.phys.toNat / archPageSize * archPageSize
  if comMmVmmFaultAttrMap &&& c.attr ≠ 0 then do
    let a ← takeMany s.pageMeta newPhys.toNat c.numPages
    some { s with
      pageMeta := a
      tables := s.tables.set i (mapPages pt faultVirtPage newPhys c.mmuFlagsHint c.numPages) }
  else if comMmVmmFaultAttrCow &&& c.attr ≠ 0 then do
    let shared ← comMmPmmIsShared s.pageMeta faultPhysPage
    if ¬ shared then
      let pt := archMmuMap pt faultVirtPage (BitVec.ofNat 64 faultPhysPage) c.mmuFlagsHint
      some { s with tables := s.tables.set i pt }
    else
      let a ← takeFree s.pageMeta newPhys.toNat
      let a ← comMmPmmFree a faultPhysPage
      let pt := archMmuMap pt faultVirtPage newPhys c.mmuFlagsHint
      some ⟨a, kmemcpy s.mem newPhys.toNat faultPhysPage archPageSize, s.tables.set i pt⟩
  else some s

def userEntry (pt : Pagetable) (va : ℕ) : Option Entry := userLeaf pt (pathOf 3 va)

def storeByte (s : System) (e : Entry) (va : ℕ) (b : BitVec 8) : System :=
  { s with mem := update s.mem (physPage e + va % archPageSize) b }

/-- A one-byte store. A page that is neither writable nor private to be copied rejects it. -/
def userWrite (s : System) (i va : ℕ) (b : BitVec 8) (newPhys : Entry) : Option System := do
  let pt ← s.tables[i]?
  let e ← userEntry pt va
  if has archMmuFlagsWrite e then some (storeByte s e va b)
  else if has archMmuExtraFlagsPrivate e ∧ ¬ has archMmuExtraFlagsNocopy e then
    let c ← x8664MmuFaultIsr pt (BitVec.ofNat 64 va)
    let s ← comMmVmmHandleFault s i pt c newPhys
    -- The store is tried again.
    let pt ← s.tables[i]?
    let e ← userEntry pt va
    if has archMmuFlagsWrite e then some (storeByte s e va b) else none
  else some s

def fork (rootTable : Pagetable) (s : System) (i : ℕ) : Option System := do
  let pt ← s.tables[i]?
  let d := archMmuDuplicateTable rootTable pt
  let a ← d.held.foldlM comMmPmmHold s.pageMeta
  some { s with pageMeta := a, tables := s.tables.set i d.old ++ [d.new] }

abbrev Content := Fin archPageSize → BitVec 8

def mapping (e : Entry) : Mapping ℕ :=
  ⟨frame e, has archMmuExtraFlagsShared e, has archMmuFlagsWrite e⟩

def spaceOf (pt : Pagetable) : Space (RadixTable.Path 512 3) ℕ :=
  fun p => (userLeaf pt p).map mapping

def store (s : System) : Store (RadixTable.Path 512 3) ℕ Content where
  spaces := s.tables.map spaceOf
  count f := (s.pageMeta.entries f).numRef
  content f o := s.mem (archPageSize * f + o)

def maxTables : ℕ := 2 ^ 52

structure Backed (s : System) : Prop where
  array : s.pageMeta.reservedStart ≤ s.pageMeta.extendedLen
  fake : s.pageMeta.fakeEntry.state ≠ .free
  tables : s.tables.length ≤ maxTables
  taken : ∀ pt ∈ s.tables, ∀ p e, userLeaf pt p = some e →
    frame e < s.pageMeta.reservedStart ∧ (s.pageMeta.entries (frame e)).state = .taken
  exclusive : ∀ pt ∈ s.tables, ∀ p e, userLeaf pt p = some e →
    ¬ (has archMmuExtraFlagsShared e ∧ has archMmuExtraFlagsPrivate e)

variable {s s' : System} {a : PageMetaArray} {pt pt' : Pagetable} {i j va f : ℕ} {e P : Entry}
  {p q : RadixTable.Path 512 3} {phys : ℕ}

theorem space_of_table (h : s.tables[i]? = some pt) : (store s).spaces[i]? = some (spaceOf pt) := by
  simp [store, h]

def setMeta (a : PageMetaArray) (f : ℕ) (m : PageMeta) : PageMetaArray :=
  { a with entries := update a.entries f m }

theorem fill_entry (a : PageMetaArray) (f : ℕ) (m : PageMeta) :
    a.fill (.entry f) m 1 = setMeta a f m := by
  simp only [PageMetaArray.fill, setMeta]
  congr 1
  funext j
  by_cases hj : j = f
  · subst hj
    simp
  · rw [update_of_ne hj, if_neg (by omega)]

section

variable (ha : a.reservedStart ≤ a.extendedLen) (hf : phys / archPageSize < a.reservedStart)

include ha hf

theorem pageMetaGet_entry :
    pageMetaGet a phys = some (.entry (phys / archPageSize)) := by
  change (if phys / archPageSize < a.extendedLen then _ else _) = _
  rw [if_pos (hf.trans_le ha)]
  exact congrArg some (if_pos hf)

theorem comMmPmmHold_eq
    (hst : (a.entries (phys / archPageSize)).state ≠ .free)
    (hlt : (a.entries (phys / archPageSize)).numRef + 1 < 2 ^ 64) :
    comMmPmmHold a phys = some (setMeta a (phys / archPageSize)
      { a.entries (phys / archPageSize) with
        numRef := (a.entries (phys / archPageSize)).numRef + 1 }) := by
  rw [comMmPmmHold, pageMetaGet_entry ha hf]
  refine (if_pos hst).trans (congrArg some ?_)
  rw [fill_entry, sizeAdd]
  exact congrArg (fun n => setMeta a _ { a.entries _ with numRef := n }) (Nat.mod_eq_of_lt hlt)

theorem comMmPmmIsShared_eq
    (hst : (a.entries (phys / archPageSize)).state ≠ .free) :
    comMmPmmIsShared a phys = some (decide ((a.entries (phys / archPageSize)).numRef > 1)) := by
  rw [comMmPmmIsShared, pageMetaGet_entry ha hf]
  exact if_pos hst

theorem comMmPmmFree_eq
    (hst : (a.entries (phys / archPageSize)).state = .taken)
    (hps : (a.entries (phys / archPageSize)).numRef ≠ 0) :
    comMmPmmFree a phys = some (setMeta a (phys / archPageSize)
      { a.entries (phys / archPageSize) with
        numRef := (a.entries (phys / archPageSize)).numRef - 1 }) := by
  rw [comMmPmmFree, pageMetaGet_entry ha hf]
  refine (if_pos hst).trans (congrArg some ?_)
  rw [fill_entry, sizeDec]
  exact congrArg (fun n => setMeta a _ { a.entries _ with numRef := n }) (if_neg hps)

end

theorem takeFree_eq {a' : PageMetaArray} (hfk : a.fakeEntry.state ≠ .free)
    (h : takeFree a phys = some a') :
    phys / archPageSize < a.reservedStart ∧ (a.entries (phys / archPageSize)).state = .free ∧
      a' = setMeta a (phys / archPageSize) takenMeta := by
  simp only [takeFree, bind_eq_bind, bind_eq_some_iff] at h
  obtain ⟨ref, hrf, h⟩ := h
  split at h
  · rename_i hfr
    change (if phys / archPageSize < a.extendedLen then
      some (if phys / archPageSize < a.reservedStart then _ else _) else _) = _ at hrf
    split at hrf
    · cases hrf
      split at hfr
      · rename_i hlt
        rw [if_pos hlt, fill_entry] at h
        exact ⟨hlt, hfr.1, (some.inj h).symm⟩
      · exact absurd hfr.1 hfk
    · simp at hrf
  · simp at h

def remapped (P e : Entry) : Entry := (P &&& addrMask) ||| mmuFlagsHint e

theorem getLsbD_addrMask : ∀ i < 64, addrMask.getLsbD i = decide (12 ≤ i ∧ i < 63) := by decide

theorem getLsbD_remapped (hp : has archMmuExtraFlagsPrivate e) (hn : ¬ has archMmuExtraFlagsNocopy e)
    {n : ℕ} (hi : n < 64) : (remapped P e).getLsbD n =
      if 12 ≤ n ∧ n < 63 then P.getLsbD n else (e.getLsbD n && n != 9) || n == 1 := by
  unfold remapped mmuFlagsHint
  dsimp only
  rw [if_pos hp, if_neg hn, BitVec.getLsbD_or, BitVec.getLsbD_and, write_eq, getLsbD_set _ _ _ hi,
    private_eq, getLsbD_clear _ _ _ hi, BitVec.getLsbD_and, BitVec.getLsbD_not,
    getLsbD_addrMask n hi]
  by_cases hms : 12 ≤ n ∧ n < 63
  · have h₁ : (n == 1) = false := beq_eq_false_iff_ne.mpr (by omega)
    simp [hms, h₁]
  · simp [hms, hi]

section Remapped

variable (hp : has archMmuExtraFlagsPrivate e) (hn : ¬ has archMmuExtraFlagsNocopy e)
include hp hn

theorem remapped_present (P : Entry) :
    present (remapped P e) = present e := by
  rw [present_eq, has_twoPow 0 _ (by decide), has_twoPow 0 _ (by decide),
    getLsbD_remapped hp hn (by decide)]
  simp

theorem remapped_write (P : Entry) : has archMmuFlagsWrite (remapped P e) := by
  rw [write_eq, has_twoPow 1 _ (by decide), getLsbD_remapped hp hn (by decide)]
  simp

theorem remapped_shared (P : Entry) :
    has archMmuExtraFlagsShared (remapped P e) = has archMmuExtraFlagsShared e := by
  rw [shared_eq, has_twoPow 10 _ (by decide), has_twoPow 10 _ (by decide),
    getLsbD_remapped hp hn (by decide)]
  simp

theorem remapped_private (P : Entry) : ¬ has archMmuExtraFlagsPrivate (remapped P e) := by
  rw [private_eq, has_twoPow 9 _ (by decide), getLsbD_remapped hp hn (by decide)]
  simp

theorem remapped_frame (P : Entry) : frame (remapped P e) = frame P := by
  apply frame_congr
  intro n hlo hhi
  rw [getLsbD_remapped hp hn (by omega), if_pos ⟨hlo, hhi⟩]

end Remapped

theorem duplicateLeaf_of_shared (hs : has archMmuExtraFlagsShared e) : duplicateLeaf e = e :=
  if_pos hs

inductive LeafStep (F : Set ℕ) : Entry → Entry → Prop where
  | same (e : Entry) : LeafStep F e e
  | duplicate (e : Entry) : LeafStep F e (duplicateLeaf e)
  | remap (P : Entry) {e : Entry} (hp : has archMmuExtraFlagsPrivate e)
      (hn : ¬ has archMmuExtraFlagsNocopy e) (hP : frame P = frame e ∨ frame P ∈ F) :
      LeafStep F e (remapped P e)

def LeavesFrom (F : Set ℕ) (s s' : System) : Prop :=
  ∀ pt' ∈ s'.tables, ∀ q e', userLeaf pt' q = some e' →
    ∃ pt ∈ s.tables, ∃ e, userLeaf pt q = some e ∧ LeafStep F e e'

variable {F : Set ℕ}

theorem LeavesFrom.refl (s : System) : LeavesFrom F s s :=
  fun pt hpt _ e he => ⟨pt, hpt, e, he, .same e⟩

theorem LeavesFrom.invariant {Q : RadixTable.Path 512 3 → Entry → Prop} (h : LeavesFrom F s s')
    (hstp : ∀ q e e', LeafStep F e e' → Q q e → Q q e')
    (hs : ∀ pt ∈ s.tables, ∀ q e, userLeaf pt q = some e → Q q e) :
    ∀ pt ∈ s'.tables, ∀ q e, userLeaf pt q = some e → Q q e := by
  intro pt' hpt' q e' he'
  obtain ⟨pt, hpt, e, he, hl⟩ := h pt' hpt' q e' he'
  exact hstp q e e' hl (hs pt hpt q e he)

theorem LeafStep.exclusive {e' : Entry} (h : LeafStep F e e')
    (he : ¬ (has archMmuExtraFlagsShared e ∧ has archMmuExtraFlagsPrivate e)) :
    ¬ (has archMmuExtraFlagsShared e' ∧ has archMmuExtraFlagsPrivate e') := by
  cases h with
  | same => exact he
  | duplicate =>
    rintro ⟨hs, hp⟩
    rw [duplicateLeaf_shared] at hs
    rw [duplicateLeaf_of_shared hs] at hp
    exact he ⟨hs, hp⟩
  | remap P hp hn =>
    rintro ⟨-, hpv⟩
    exact remapped_private hp hn P hpv

theorem LeafStep.frame_cases {e' : Entry} (h : LeafStep F e e') :
    frame e' = frame e ∨ frame e' ∈ F := by
  cases h with
  | same => exact .inl rfl
  | duplicate => exact .inl duplicateLeaf_frame
  | remap P hp hn hP =>
    rw [remapped_frame hp hn]
    exact hP

theorem Backed.of_leaves (hb : Backed s) (h : LeavesFrom F s s')
    (hsa : s'.pageMeta.reservedStart = s.pageMeta.reservedStart)
    (hln : s'.pageMeta.extendedLen = s.pageMeta.extendedLen)
    (hfk : s'.pageMeta.fakeEntry = s.pageMeta.fakeEntry)
    (hst : ∀ f, (s.pageMeta.entries f).state = .taken → (s'.pageMeta.entries f).state = .taken)
    (hF : ∀ f ∈ F, f < s.pageMeta.reservedStart ∧ (s'.pageMeta.entries f).state = .taken)
    (htb : s'.tables.length ≤ maxTables) : Backed s' := by
  constructor
  · rw [hsa, hln]
    exact hb.array
  · rw [hfk]
    exact hb.fake
  · exact htb
  · intro pt' hpt' q e' he'
    obtain ⟨pt, hpt, e, he, hl⟩ := h pt' hpt' q e' he'
    rw [hsa]
    rcases hl.frame_cases with heq | hme
    · obtain ⟨hlt, htk⟩ := hb.taken pt hpt q e he
      rw [heq]
      exact ⟨hlt, hst _ htk⟩
    · exact hF _ hme
  · exact h.invariant (fun _ _ _ hl => hl.exclusive) hb.exclusive

structure Raised (a a' : PageMetaArray) (n : ℕ → ℕ) : Prop where
  reservedStart : a'.reservedStart = a.reservedStart
  extendedLen : a'.extendedLen = a.extendedLen
  fakeEntry : a'.fakeEntry = a.fakeEntry
  state : ∀ f, (a'.entries f).state = (a.entries f).state
  numRef : ∀ f, (a'.entries f).numRef = (a.entries f).numRef + n f

theorem setMeta_raised (a : PageMetaArray) (f : ℕ) :
    Raised a (setMeta a f { a.entries f with numRef := (a.entries f).numRef + 1 })
      (fun g => if f == g then 1 else 0) := by
  constructor
  · rfl
  · rfl
  · rfl
  · intro g
    by_cases hg : g = f
    · simp [setMeta, hg]
    · simp [setMeta, hg]
  · intro g
    by_cases hg : g = f
    · simp [setMeta, hg]
    · simp [setMeta, hg, Ne.symm hg]

theorem hold_all {held : List ℕ} (ha : a.reservedStart ≤ a.extendedLen)
    (hhd : ∀ page ∈ held, page / archPageSize < a.reservedStart ∧ (a.entries (page /
      archPageSize)).state = .taken ∧ (a.entries (page / archPageSize)).numRef + (held.map (· /
      archPageSize)).count (page / archPageSize) < 2 ^ 64) :
    ∃ a', held.foldlM comMmPmmHold a = some a' ∧
      Raised a a' fun f => (held.map (· / archPageSize)).count f := by
  induction held generalizing a with
  | nil => exact ⟨a, rfl, rfl, rfl, rfl, fun _ => rfl, fun _ => rfl⟩
  | cons page held ih =>
    obtain ⟨hlt, htk, hbd⟩ := hhd page mem_cons_self
    rw [map_cons, count_cons_self] at hbd
    have hhl := comMmPmmHold_eq ha hlt (by rw [htk]; decide) (by omega)
    have hr := setMeta_raised a (page / archPageSize)
    rw [foldlM_cons, hhl, bind_eq_bind, bind_some]
    obtain ⟨a', hfd, hr'⟩ := ih (by rwa [hr.reservedStart, hr.extendedLen]) (by
      intro page' hme
      obtain ⟨hlt', htk', hbd'⟩ := hhd page' (mem_cons_of_mem _ hme)
      rw [map_cons, count_cons] at hbd'
      rw [hr.reservedStart, hr.state, hr.numRef]
      exact ⟨hlt', htk', by omega⟩)
    refine ⟨a', hfd, ?_⟩
    constructor
    · rw [hr'.reservedStart, hr.reservedStart]
    · rw [hr'.extendedLen, hr.extendedLen]
    · rw [hr'.fakeEntry, hr.fakeEntry]
    · intro f
      rw [hr'.state, hr.state]
    · intro f
      rw [hr'.numRef, hr.numRef, map_cons, count_cons]
      omega

theorem mapping_duplicateLeaf (e : Entry) : mapping (duplicateLeaf e) = (mapping e).protect := by
  simp only [mapping, Mapping.protect, duplicateLeaf_frame, duplicateLeaf_shared,
    duplicateLeaf_write]

theorem spaceOf_duplicate (rootTable pt : Pagetable) :
    spaceOf (archMmuDuplicateTable rootTable pt).new = protectAll (spaceOf pt) ∧
      spaceOf (archMmuDuplicateTable rootTable pt).old = protectAll (spaceOf pt) := by
  constructor <;> funext p
  all_goals
    simp only [spaceOf, protectAll, userLeaf_duplicate fun _ _ => rfl, Option.map_map]
    exact congrArg (Option.map · _) (funext mapping_duplicateLeaf)

theorem holds_spaceOf : Holds p f (spaceOf pt) ↔ (userLeaf pt p).map frame = some f := by
  simp only [Holds, spaceOf, Option.map_map, decide_eq_true_eq]
  rfl

theorem count_held_eq_uses (rootTable pt : Pagetable) (f : ℕ) :
    ((archMmuDuplicateTable rootTable pt).held.map (· / archPageSize)).count f =
      uses (spaceOf pt) f := by
  rw [count_held_user, uses]
  apply Finset.sum_congr rfl
  intro p _
  exact if_congr holds_spaceOf.symm rfl rfl

variable {rootTable : Pagetable} {c : Eager (RadixTable.Path 512 3) Content}

theorem look_store (h : s.tables[i]? = some pt) : (store s).look i p = (userLeaf pt p).map mapping :=
  look_of_space (space_of_table h)

theorem numRef_le (h : Simulates (store s) c) (hpt : s.tables[i]? = some pt)
    (he : userLeaf pt p = some e) : (s.pageMeta.entries (frame e)).numRef ≤ s.tables.length := by
  have hlk : (store s).look i p = some (mapping e) := by rw [look_store hpt, he]; rfl
  have hct : (s.pageMeta.entries (frame e)).numRef = _ := h.counted i p (mapping e) hlk
  rw [hct]
  exact countP_le_length.trans (by simp [store])

theorem held_in_use (rootTable : Pagetable) (hb : Backed s) (h : Simulates (store s) c)
    (hpt : s.tables[i]? = some pt) :
    ∀ page ∈ (archMmuDuplicateTable rootTable pt).held,
      page / archPageSize < s.pageMeta.reservedStart ∧
      (s.pageMeta.entries (page / archPageSize)).state = .taken ∧
      (s.pageMeta.entries (page / archPageSize)).numRef +
        ((archMmuDuplicateTable rootTable pt).held.map (· / archPageSize)).count
          (page / archPageSize) < 2 ^ 64 := by
  intro page hpage
  -- A held page has a leaf entry.
  have hme : page / archPageSize ∈
      (archMmuDuplicateTable rootTable pt).held.map (· / archPageSize) := mem_map_of_mem hpage
  have hne := (count_pos_iff.mpr hme).ne'
  rw [count_held_user] at hne
  obtain ⟨p, -, hp⟩ := Finset.exists_ne_zero_of_sum_ne_zero hne
  have hlf : (userLeaf pt p).map frame = some (page / archPageSize) := by
    by_contra hnt
    exact hp (if_neg hnt)
  obtain ⟨e, he, hf⟩ := map_eq_some_iff.mp hlf
  have hlk : (store s).look i p = some (mapping e) := by rw [look_store hpt, he]; rfl
  have hus : uses (spaceOf pt) (frame e) ≤ 1 := by
    refine (h.uses_eq (space_of_table hpt) hlk).le.trans ?_
    split <;> decide
  have hrf := numRef_le h hpt he
  have htb := hb.tables
  have htk := hb.taken pt (mem_of_getElem? hpt) p e he
  rw [← hf, count_held_eq_uses]
  refine ⟨htk.1, htk.2, ?_⟩
  simp only [maxTables] at htb
  omega

theorem fork_leaves (hpt : s.tables[i]? = some pt)
    (htb : s'.tables = s.tables.set i (archMmuDuplicateTable rootTable pt).old ++
      [(archMmuDuplicateTable rootTable pt).new]) : LeavesFrom F s s' := by
  intro pt' hme q e' he'
  have hme₀ : pt ∈ s.tables := mem_of_getElem? hpt
  rw [htb] at hme
  rcases mem_append.mp hme with hme | hme
  · rcases mem_or_eq_of_mem_set hme with hme | rfl
    · exact ⟨pt', hme, e', he', .same e'⟩
    · rw [(userLeaf_duplicate (fun _ _ => rfl) ..).2] at he'
      obtain ⟨e, he, rfl⟩ := map_eq_some_iff.mp he'
      exact ⟨pt, hme₀, e, he, .duplicate e⟩
  · obtain rfl := mem_singleton.mp hme
    rw [(userLeaf_duplicate (fun _ _ => rfl) ..).1] at he'
    obtain ⟨e, he, rfl⟩ := map_eq_some_iff.mp he'
    exact ⟨pt, hme₀, e, he, .duplicate e⟩

theorem fork_simulates (rootTable : Pagetable) (hb : Backed s)
    (h : Simulates (store s) c) (hpt : s.tables[i]? = some pt)
    (hlt : s.tables.length < maxTables) :
    ∃ s', fork rootTable s i = some s' ∧ LeavesFrom ∅ s s' ∧ Backed s' ∧
      Simulates (store s') (c.fork i) := by
  obtain ⟨a, hhl, hr⟩ := hold_all hb.array (held_in_use rootTable hb h hpt)
  refine ⟨⟨a, s.mem, s.tables.set i (archMmuDuplicateTable rootTable pt).old ++
    [(archMmuDuplicateTable rootTable pt).new]⟩, ?_, fork_leaves hpt rfl, ?_, ?_⟩
  · simp only [fork, hpt, hhl, bind_eq_bind, bind_some]
  · refine hb.of_leaves (fork_leaves hpt rfl : LeavesFrom ∅ s _) hr.reservedStart hr.extendedLen
      hr.fakeEntry ?_ (fun _ => False.elim) ?_
    · intro f hf
      rw [hr.state, hf]
    · rw [length_append, length_set, length_singleton]
      exact hlt
  · convert h.fork (space_of_table hpt) using 1
    simp only [store, Store.fork, map_append, map_set, (spaceOf_duplicate ..).2,
      map_cons, map_nil, (spaceOf_duplicate ..).1, hr.numRef, count_held_eq_uses]

theorem offset_lt (va : ℕ) : va % archPageSize < archPageSize := Nat.mod_lt _ (by decide)

def setByte (va : ℕ) (b : BitVec 8) (content : Content) : Content :=
  update content ⟨va % archPageSize, offset_lt va⟩ b

theorem store_storeByte (s : System) (e : Entry) (va : ℕ) (b : BitVec 8) :
    store (storeByte s e va b) = (store s).write (frame e) (setByte va b) := by
  simp only [store, storeByte, Store.write]
  congr 1
  funext f o
  have hva : va % archPageSize < 4096 := offset_lt va
  rw [← physPage_dvd]
  by_cases hf : f = frame e
  · subst hf
    rw [update_self, setByte]
    by_cases hof : o.val = va % archPageSize
    · obtain rfl : o = ⟨va % archPageSize, hva⟩ := Fin.ext hof
      rw [update_self, update_self]
    · rw [update_of_ne (fun heq => hof (by omega)),
        update_of_ne (fun heq => hof (congrArg Fin.val heq))]
  · rw [update_of_ne hf, update_of_ne]
    simp only [archPageSize] at hva ⊢
    omega

theorem storeByte_backed (hb : Backed s) (b : BitVec 8) : Backed (storeByte s e va b) :=
  ⟨hb.array, hb.fake, hb.tables, hb.taken, hb.exclusive⟩

theorem direct_simulates (hb : Backed s) (h : Simulates (store s) c)
    (hpt : s.tables[i]? = some pt) (he : userEntry pt va = some e) (hw : has archMmuFlagsWrite e)
    (b : BitVec 8) : Backed (storeByte s e va b) ∧
      Simulates (store (storeByte s e va b)) (c.write i (pathOf 3 va) (setByte va b)) := by
  refine ⟨storeByte_backed hb b, ?_⟩
  rw [store_storeByte]
  have hlk : (store s).look i (pathOf 3 va) = some (mapping e) := by
    rw [look_store hpt]
    exact congrArg (Option.map mapping) he
  exact h.write hlk hw

theorem walk_of_userLeaf (h : userLeaf pt p = some e) :
    walk present pt p = some e ∧ present e := by
  cases p with
  | step n p =>
    rw [userLeaf] at h
    split at h
    · rw [presentLeaf, filter_eq_some_iff] at h
      exact h
    · simp at h

theorem getPage_of_userEntry (h : userEntry pt va = some e) : getPage pt va = some e :=
  lookup_of_walk (walk_of_userLeaf h).1

theorem userLeaf_map {v : ℕ} {P flags : Entry} (he : userLeaf pt (pathOf 3 v) = some e)
    (hpr : present ((P &&& addrMask) ||| flags)) (q : RadixTable.Path 512 3) :
    userLeaf (archMmuMap pt v P flags) q =
      if q = pathOf 3 v then some ((P &&& addrMask) ||| flags) else userLeaf pt q := by
  obtain ⟨hwk, -⟩ := walk_of_userLeaf he
  have hse : write pt (pathOf 3 v) ((P &&& addrMask) ||| flags) =
      some (archMmuMap pt v P flags) := setPage_eq_addPage (lookup_of_walk hwk)
  cases q with
  | step n q =>
    rw [userLeaf, userLeaf, presentLeaf, presentLeaf, walk_write hse]
    by_cases hq : RadixTable.Path.step n q = pathOf 3 v
    · rw [← hq, userLeaf] at he
      split at he
      · rename_i hn
        rw [if_pos hn, if_pos hq, if_pos hq, hwk]
        simp [Option.filter, hpr]
      · simp at he
    · rw [if_neg hq, if_neg hq]

variable {newPhys : Entry} {hint : Entry}

def cowCall (va : ℕ) (e : Entry) : FaultCall :=
  ⟨BitVec.ofNat 64 va, e &&& addrMask, mmuFlagsHint e, comMmVmmFaultAttrCow, 1⟩

theorem x8664MmuFaultIsr_cow (hva : va < 2 ^ 47) (he : getPage pt va = some e)
    (hp : has archMmuExtraFlagsPrivate e) (hn : ¬ has archMmuExtraFlagsNocopy e) :
    x8664MmuFaultIsr pt (ofNat 64 va) = some (cowCall va e) := by
  have hat : vmmAttr e = comMmVmmFaultAttrCow := by
    unfold vmmAttr
    rw [if_pos hp, if_neg hn]
  have hsc : prefaultScan pt (ofNat 64 va) e = ⟨e, ofNat 64 va, 1⟩ := by
    unfold prefaultScan
    rw [hat]
    rfl
  have hgt : getPage pt (ofNat 64 va).toNat = some e := by
    rw [BitVec.toNat_ofNat, Nat.mod_eq_of_lt (by omega), he]
  rw [x8664MmuFaultIsr, hgt, map_some, hsc, hat]
  rfl

theorem pathOf_page (va : ℕ) : pathOf 3 (va / archPageSize * archPageSize) = pathOf 3 va := by
  apply pathOf_eq_iff.mpr
  simp only [pageNo, archPageSize]
  omega

theorem handleFault_cow (hva : va < 2 ^ 47) : comMmVmmHandleFault s i pt (cowCall va e) newPhys =
      (comMmPmmIsShared s.pageMeta (physPage e)).bind fun shared =>
        if ¬ shared then
          some ⟨s.pageMeta, s.mem, s.tables.set i (archMmuMap pt
            (va / archPageSize * archPageSize) (ofNat 64 (physPage e)) (mmuFlagsHint e))⟩
        else (takeFree s.pageMeta newPhys.toNat).bind fun a =>
          (comMmPmmFree a (physPage e)).bind fun a =>
            some ⟨a, kmemcpy s.mem newPhys.toNat (physPage e) archPageSize, s.tables.set i
              (archMmuMap pt (va / archPageSize * archPageSize) newPhys (mmuFlagsHint e))⟩ := by
  have hph : (e &&& addrMask).toNat / archPageSize * archPageSize = physPage e := by
    rw [Nat.mul_comm]
    exact physPage_dvd e
  have hvr : (ofNat 64 va).toNat = va := by
    rw [BitVec.toNat_ofNat, Nat.mod_eq_of_lt (by omega)]
  unfold comMmVmmHandleFault cowCall
  dsimp only
  rw [if_neg (by decide), if_pos (by decide), hph, hvr]
  rfl

theorem frame_ofNat_physPage (e : Entry) : frame (ofNat 64 (physPage e)) = frame e := by
  rw [frame, frame, physPage, physPage, BitVec.ofNat_toNat, BitVec.setWidth_eq, BitVec.and_assoc,
    BitVec.and_self]

theorem content_kmemcpy (mem : ℕ → BitVec 8) (n g : ℕ) : (fun f (o : Fin archPageSize) =>
      kmemcpy mem (archPageSize * n) (archPageSize * g) archPageSize (archPageSize * f + o)) =
    update (fun f (o : Fin archPageSize) => mem (archPageSize * f + o)) n
      fun o => mem (archPageSize * g + o) := by
  funext f o
  rw [kmemcpy]
  by_cases hf : f = n
  · subst hf
    rw [if_pos (by simp only [archPageSize]; omega), update_self, Nat.add_sub_cancel_left]
  · rw [if_neg (by simp only [archPageSize]; omega), update_of_ne hf]

section Cow

variable (hpt : s.tables[i]? = some pt) (he : userEntry pt va = some e)
  (hp : has archMmuExtraFlagsPrivate e) (hn : ¬ has archMmuExtraFlagsNocopy e)
include he hp hn

theorem userLeaf_remapped (P : Entry) (q : RadixTable.Path 512 3) :
    userLeaf (archMmuMap pt (va / archPageSize * archPageSize) P (mmuFlagsHint e)) q =
      if q = pathOf 3 va then some (remapped P e) else userLeaf pt q := by
  have hpr : present (remapped P e) := by
    rw [remapped_present hp hn]
    exact (walk_of_userLeaf he).2
  have he' : userLeaf pt (pathOf 3 (va / archPageSize * archPageSize)) = some e := by
    rw [pathOf_page]
    exact he
  rw [userLeaf_map he' hpr q, pathOf_page]
  rfl

theorem spaceOf_remapped (P : Entry) :
    spaceOf (archMmuMap pt (va / archPageSize * archPageSize) P (mmuFlagsHint e)) =
      update (spaceOf pt) (pathOf 3 va) (some ⟨frame P, has archMmuExtraFlagsShared e, true⟩) := by
  funext q
  rw [spaceOf, userLeaf_remapped he hp hn]
  by_cases hq : q = pathOf 3 va
  · rw [if_pos hq, hq, update_self, map_some, mapping, remapped_frame hp hn,
      remapped_shared hp hn, remapped_write hp hn]
  · rw [if_neg hq, update_of_ne hq, spaceOf]

include hpt

theorem remap_leaves (P : Entry) (hP : frame P = frame e ∨ frame P ∈ F)
    (htb : s'.tables = s.tables.set i
      (archMmuMap pt (va / archPageSize * archPageSize) P (mmuFlagsHint e))) :
    LeavesFrom F s s' := by
  intro pt' hpt' q e' he'
  rw [htb] at hpt'
  rcases mem_or_eq_of_mem_set hpt' with hold | rfl
  · exact ⟨pt', hold, e', he', .same e'⟩
  · have hme : pt ∈ s.tables := mem_of_getElem? hpt
    rw [userLeaf_remapped he hp hn] at he'
    split at he'
    · cases he'
      rename_i hq
      exact ⟨pt, hme, e, hq ▸ he, .remap P hp hn hP⟩
    · exact ⟨pt, hme, e', he', .same e'⟩

theorem userEntry_remapped (P : Entry) : ∃ pt', (s.tables.set i
      (archMmuMap pt (va / archPageSize * archPageSize) P (mmuFlagsHint e)))[i]? = some pt' ∧
    userEntry pt' va = some (remapped P e) := by
  refine ⟨archMmuMap pt (va / archPageSize * archPageSize) P (mmuFlagsHint e), ?_, ?_⟩
  · exact List.getElem?_set_self (List.getElem?_eq_some_iff.mp hpt).1
  · rw [userEntry, userLeaf_remapped he hp hn, if_pos rfl]

theorem inPlace_simulates (hb : Backed s) (h : Simulates (store s) c)
    (hon : (s.pageMeta.entries (frame e)).numRef ≤ 1)
    (hs' : s' = ⟨s.pageMeta, s.mem, s.tables.set i (archMmuMap pt
      (va / archPageSize * archPageSize) (ofNat 64 (physPage e)) (mmuFlagsHint e))⟩) :
    LeavesFrom ∅ s s' ∧ Backed s' ∧ Simulates (store s') c := by
  have hlv : LeavesFrom ∅ s s' := remap_leaves hpt he hp hn (ofNat 64 (physPage e))
    (.inl (frame_ofNat_physPage e)) (by rw [hs'])
  have hky : spaceOf pt (pathOf 3 va) = some (mapping e) := congrArg (Option.map mapping) he
  subst hs'
  refine ⟨hlv, ?_, ?_⟩
  · refine hb.of_leaves hlv rfl rfl rfl (fun _ => id) (fun _ => False.elim) ?_
    rw [length_set]
    exact hb.tables
  · apply h.own_inPlace (space_of_table hpt) hky hon
    simp only [store, remap, map_set, spaceOf_remapped he hp hn, frame_ofNat_physPage]
    rfl

theorem copy_simulates {a : PageMetaArray} (hb : Backed s) (h : Simulates (store s) c)
    (hnew : newPhys &&& addrMask = newPhys)
    (hta : takeFree s.pageMeta newPhys.toNat = some a)
    (hs' : s' = ⟨setMeta a (frame e)
        { a.entries (frame e) with numRef := (a.entries (frame e)).numRef - 1 },
      kmemcpy s.mem newPhys.toNat (physPage e) archPageSize, s.tables.set i
      (archMmuMap pt (va / archPageSize * archPageSize) newPhys (mmuFlagsHint e))⟩) :
    LeavesFrom {frame newPhys} s s' ∧ Backed s' ∧ Simulates (store s') c := by
  obtain ⟨hlt, htk⟩ := hb.taken pt (mem_of_getElem? hpt) _ e he
  have hky : spaceOf pt (pathOf 3 va) = some (mapping e) := congrArg (Option.map mapping) he
  have hsh : ¬ has archMmuExtraFlagsShared e := fun hs =>
    hb.exclusive pt (mem_of_getElem? hpt) _ e he ⟨hs, hp⟩
  have hph : physPage newPhys = newPhys.toNat := by rw [physPage, hnew]
  have hfm : newPhys.toNat / archPageSize = frame newPhys := by rw [frame, hph]
  obtain ⟨hnw, hfr, rfl⟩ := takeFree_eq hb.fake hta
  rw [hfm] at hnw hfr hs'
  -- A free page has no leaf entry.
  have hfs : ∀ j l m, (store s).look j l = some m → m.frame ≠ frame newPhys := by
    intro j l m hm heq
    obtain ⟨sp, hsp, hl⟩ := exists_space hm
    obtain ⟨pt₀, hpt₀, rfl⟩ : ∃ pt₀, s.tables[j]? = some pt₀ ∧ spaceOf pt₀ = sp := by
      simpa [store] using hsp
    obtain ⟨e₀, he₀, rfl⟩ := map_eq_some_iff.mp hl
    have htk₀ := (hb.taken pt₀ (mem_of_getElem? hpt₀) l e₀ he₀).2
    rw [show frame e₀ = frame newPhys from heq, hfr] at htk₀
    simp at htk₀
  have hne : frame e ≠ frame newPhys :=
    hfs i (pathOf 3 va) (mapping e) (by rw [look_store hpt]; exact hky)
  have hlv : LeavesFrom {frame newPhys} s s' :=
    remap_leaves hpt he hp hn newPhys (.inr rfl) (by rw [hs'])
  subst hs'
  refine ⟨hlv, ?_, ?_⟩
  · refine hb.of_leaves hlv rfl rfl rfl (fun f hf => ?_) (fun f hf => ?_) ?_
    · by_cases hfe : f = frame e
      · subst hfe
        simp [setMeta, hne, htk]
      · by_cases hfn : f = frame newPhys
        · subst hfn
          simp [setMeta, hfe, takenMeta]
        · simp [setMeta, hfe, hfn, hf]
    · obtain rfl : f = frame newPhys := hf
      exact ⟨hnw, by simp [setMeta, hne.symm, takenMeta]⟩
    · rw [length_set]
      exact hb.tables
  · apply h.own_copy (space_of_table hpt) hky hsh hfs
    simp only [store, remap, map_set, spaceOf_remapped he hp hn]
    congr 1
    · funext f
      by_cases hfe : f = frame e
      · subst hfe
        simp [setMeta, hne, mapping]
      · by_cases hfn : f = frame newPhys
        · subst hfn
          simp [setMeta, hfe, takenMeta, mapping]
        · simp [setMeta, hfe, hfn, mapping]
    · rw [← hph, ← physPage_dvd newPhys, ← physPage_dvd e]
      exact content_kmemcpy s.mem (frame newPhys) (frame e)

theorem handleFault_simulates (hb : Backed s) (h : Simulates (store s) c)
    (hva : va < 2 ^ 47) (hnew : newPhys &&& addrMask = newPhys)
    (hta : (takeFree s.pageMeta newPhys.toNat).isSome) :
    ∃ s' pt' P, comMmVmmHandleFault s i pt (cowCall va e) newPhys = some s' ∧
      (∃ F, LeavesFrom F s s') ∧ Backed s' ∧ Simulates (store s') c ∧
      s'.tables[i]? = some pt' ∧ userEntry pt' va = some (remapped P e) := by
  obtain ⟨hlt, htk⟩ := hb.taken pt (mem_of_getElem? hpt) _ e he
  have hin : (s.pageMeta.entries (frame e)).state ≠ .free := by
    rw [htk]
    decide
  have hsh := comMmPmmIsShared_eq hb.array hlt hin
  rw [handleFault_cow hva, hsh, bind_some]
  by_cases hon : (s.pageMeta.entries (frame e)).numRef ≤ 1
  · obtain ⟨pt', hpt', he'⟩ := userEntry_remapped hpt he hp hn (ofNat 64 (physPage e))
    obtain ⟨hl, hb', h'⟩ := inPlace_simulates hpt he hp hn hb h hon rfl
    refine ⟨_, pt', _, ?_, ⟨_, hl⟩, hb', h', hpt', he'⟩
    apply if_pos
    simpa [frame] using hon
  · obtain ⟨a, ha⟩ := isSome_iff_exists.mp hta
    obtain ⟨hnw, hfr, hse⟩ := takeFree_eq hb.fake ha
    have hne : frame e ≠ newPhys.toNat / archPageSize := by
      intro heq
      rw [← heq, htk] at hfr
      simp at hfr
    have hen : a.entries (frame e) = s.pageMeta.entries (frame e) := by
      rw [hse]
      exact update_of_ne hne _ _
    have hpu : comMmPmmFree a (physPage e) = some (setMeta a (frame e)
        { a.entries (frame e) with numRef := (a.entries (frame e)).numRef - 1 }) := by
      apply comMmPmmFree_eq
      · rw [hse]
        exact hb.array
      · rw [hse]
        exact hlt
      · exact (congrArg PageMeta.state hen).trans htk
      · change (a.entries (frame e)).numRef ≠ 0
        rw [hen]
        omega
    obtain ⟨pt', hpt', he'⟩ := userEntry_remapped hpt he hp hn newPhys
    obtain ⟨hl, hb', h'⟩ := copy_simulates hpt he hp hn hb h hnew ha rfl
    refine ⟨_, pt', _, ?_, ⟨_, hl⟩, hb', h', hpt', he'⟩
    refine (if_neg ?_).trans ?_
    · simpa [frame] using hon
    · rw [ha, bind_some, hpu]
      rfl

end Cow

inductive FaultEnd where
  | nullPointer
  | failedAssertion
  | resolved (s : System)
  | sigsegv (proc : ℕ) (s : System)

/-- A fault of process `i`. The entry is read through the result of `get_page`. -/
def userFault (s : System) (i : ℕ) (pt : Pagetable) (va : Ptr) (newPhys : Entry) : FaultEnd :=
  match x8664MmuFaultIsr pt va with
  | none => .nullPointer
  | some c =>
    match comMmVmmHandleFault s i pt c newPhys with
    | none => .failedAssertion
    | some s' =>
      if (comMmVmmFaultAttrMap ||| comMmVmmFaultAttrCow) &&& c.attr = 0 then .sigsegv i s'
      else .resolved s'

/-- No null pointer is followed, and memory that is not mapped costs the process a signal and
nothing else. -/
def Contained (s : System) (i : ℕ) (pt : Pagetable) (va : Ptr) (newPhys : Entry) : Prop :=
  userFault s i pt va newPhys ≠ .nullPointer ∧
    ((∀ e, getPage pt va.toNat = some e → e = 0 ∨
        ¬ (has archMmuExtraFlagsPrivate e ∨ has archMmuExtraFlagsNocopy e)) →
      userFault s i pt va newPhys = .sigsegv i s)

/-- A user fault is contained if and only if all tables on the way to the page exist. -/
theorem fault_contained_iff (s : System) (i : ℕ) (pt : Pagetable) (va : Ptr) (newPhys : Entry) :
    Contained s i pt va newPhys ↔ (getPage pt va.toNat).isSome := by
  cases hgt : getPage pt va.toNat with
  | none =>
    have his : x8664MmuFaultIsr pt va = none := by rw [x8664MmuFaultIsr, hgt]; rfl
    refine iff_of_false (fun h => h.1 ?_) Bool.false_ne_true
    rw [userFault, his]
  | some e =>
    obtain ⟨c, hc, hat⟩ : ∃ c, x8664MmuFaultIsr pt va = some c ∧ c.attr = vmmAttr e :=
      ⟨_, by rw [x8664MmuFaultIsr, hgt]; rfl, rfl⟩
    refine iff_of_true ⟨?_, fun h => ?_⟩ rfl
    · rw [userFault, hc]
      dsimp only
      split
      · exact FaultEnd.noConfusion
      · split <;> exact FaultEnd.noConfusion
    · have hfl : has archMmuExtraFlagsPrivate e = false ∧ has archMmuExtraFlagsNocopy e = false := by
        rcases h e hgt with rfl | hnt
        · exact ⟨rfl, rfl⟩
        · simpa using hnt
      have hz : c.attr = 0 := by
        rw [hat, vmmAttr, hfl.1, hfl.2]
        rfl
      have hsm : comMmVmmHandleFault s i pt c newPhys = some s := by
        rw [comMmVmmHandleFault, hz]
        rfl
      rw [userFault, hc]
      dsimp only
      rw [hsm, hz]
      rfl

/-- An access to a table without entries. -/
theorem fault_null_pointer : ∃ s : System, s.tables[0]? = some (blank 0 3) ∧
    userFault s 0 (blank 0 3) 0x1000 0 = .nullPointer :=
  ⟨⟨⟨none, fun _ => takenMeta, 0, 0, 0, takenMeta⟩, fun _ => 0, [blank 0 3]⟩, rfl, rfl⟩

end ForkMemory
