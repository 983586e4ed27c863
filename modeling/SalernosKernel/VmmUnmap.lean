import SalernosKernel.PageTable
import SalernosKernel.Runs
import Mathlib.Data.Set.Card

/-! # Unmapping a range of pages

`com_mm_vmm_unmap` clears the leaf entries of a range one by one and frees the pages they held. -/
namespace VmmUnmap

open PageTable List Option Runs

def unmapMaxArrayOnStack : ℕ := 64

def sizeInPages (virt len : ℕ) : ℕ := pagesFor (virt % archPageSize + len)

def tmpPhysBufPages (virt len : ℕ) : ℕ := pagesFor (sizeInPages virt len * 8)

def unmapPages : ℕ → Pagetable → ℕ → Pagetable × List Entry
  | 0, pt, _ => (pt, [])
  | rounds + 1, pt, virt =>
    match archMmuUnmap pt virt with
    | none => (pt, [])
    | some (oldPhys, pt) =>
      let (pt, rest) := unmapPages rounds pt (virt + archPageSize)
      (pt, oldPhys :: rest)

def freeMany (base : Entry) (pages : ℕ) : List Entry :=
  (List.range pages).map fun i => base + BitVec.ofNat 64 (i * archPageSize)

structure Unmapped where
  pagetable : Pagetable
  invalidated : ℕ × ℕ
  freed : List Entry

/-- With `buf` for the long array. -/
def unmapWith (buf : Entry) (pt : Pagetable) (virt len : ℕ) : Unmapped :=
  let base := virt / archPageSize * archPageSize
  let (pt, old) := unmapPages (sizeInPages virt len) pt base
  { pagetable := pt
    invalidated := (base, old.length)
    freed := old ++
      if unmapMaxArrayOnStack < sizeInPages virt len then freeMany buf (tmpPhysBufPages virt len)
      else [] }

/-- `alloc` is `com_mm_pmm_alloc_many`: it ends in its assertion unless the pages are in one block of
the free list. -/
def comMmVmmUnmap (alloc : ℕ → Option Entry) (pt : Pagetable) (virt len : ℕ) : Option Unmapped :=
  if unmapMaxArrayOnStack < sizeInPages virt len then
    (alloc (tmpPhysBufPages virt len)).map fun buf => unmapWith buf pt virt len
  else some (unmapWith 0 pt virt len)

def leaf (pt : Pagetable) (k : ℕ) : Option Entry := getPage pt (archPageSize * k)

def NoLeaf (pt : Pagetable) (k : ℕ) : Prop := leaf pt k = none ∨ leaf pt k = some 0

def MapsTo (pt : Pagetable) (P : Entry) (k : ℕ) : Prop :=
  ∃ e, leaf pt k = some e ∧ e ≠ 0 ∧ e &&& addrMask = P

def Overlaps (virt len k : ℕ) : Prop := ∃ a, virt ≤ a ∧ a < virt + len ∧ a / archPageSize = k

/-- The range is empty afterwards, nothing else changed, and each page that was mapped in the
range is freed once for each of its leaf entries there. -/
structure UnmapExact (pt : Pagetable) (virt len : ℕ) (r : Unmapped) : Prop where
  cleared : ∀ k, Overlaps virt len k → NoLeaf r.pagetable k
  kept : ∀ k < 2 ^ 36, ¬ Overlaps virt len k → leaf r.pagetable k = leaf pt k
  freed : ∀ P k, Overlaps virt len k → MapsTo pt P k →
    r.freed.count P = {k | Overlaps virt len k ∧ MapsTo pt P k}.ncard

def FreshBuffer (buf : Entry) (pt : Pagetable) (virt len : ℕ) : Prop :=
  unmapMaxArrayOnStack < sizeInPages virt len →
    ∀ P ∈ freeMany buf (tmpPhysBufPages virt len), ∀ k, Overlaps virt len k → ¬ MapsTo pt P k

/-- What the range must look like before the call. -/
structure Unmappable (pt : Pagetable) (virt len : ℕ) : Prop where
  /-- Nothing is mapped above a missing table. -/
  contiguous : ∀ i j, Overlaps virt len i → Overlaps virt len j → i < j → leaf pt i = none →
    NoLeaf pt j
  /-- A zero entry is freed as page `0`, which must then not be mapped. -/
  nullFree : ∀ i j, Overlaps virt len i → Overlaps virt len j → MapsTo pt 0 i →
    leaf pt j = some 0 → ∃ k < j, Overlaps virt len k ∧ leaf pt k = none
  /-- An empty range inside a page still takes that page. -/
  nonempty : len = 0 → virt % archPageSize ≠ 0 → NoLeaf pt (virt / archPageSize)

variable {buf : Entry} {pt pt' : Pagetable} {virt len rounds i j k : ℕ} {e P : Entry}

def HasLeaf (pt : Pagetable) (k : ℕ) : Prop := (leaf pt k).isSome
  deriving Decidable

def unmapsDone (pt : Pagetable) (virt len : ℕ) : ℕ :=
  runLength (HasLeaf pt) (sizeInPages virt len) (virt / archPageSize)

def leafPage (pt : Pagetable) (k : ℕ) : Entry := (leaf pt k).getD 0 &&& addrMask

theorem leaf_setPage (hi : i < 2 ^ 36) (hk : k < 2 ^ 36)
    (h : setPage pt (archPageSize * i) e = some pt') :
    leaf pt' k = if k = i then some e else leaf pt k := by
  rw [leaf, getPage_setPage h]
  apply if_congr _ rfl rfl
  simp only [pageNo, archPageSize]
  omega

theorem archMmuUnmap_none (h : ¬ HasLeaf pt k) : archMmuUnmap pt (archPageSize * k) = none := by
  have hno : getPage pt (archPageSize * k) = none := by simpa [HasLeaf, leaf] using h
  rw [archMmuUnmap, hno]
  rfl

theorem archMmuUnmap_some (hk : k < 2 ^ 36) (h : HasLeaf pt k) :
    ∃ pt', archMmuUnmap pt (archPageSize * k) = some (leafPage pt k, pt') ∧
      ∀ j < 2 ^ 36, leaf pt' j = if j = k then some 0 else leaf pt j := by
  obtain ⟨e, he⟩ := isSome_iff_exists.mp h
  have hsm : (setPage pt (archPageSize * k) 0).isSome := setPage_isSome.mpr h
  obtain ⟨pt', hst⟩ := isSome_iff_exists.mp hsm
  refine ⟨pt', ?_, fun j hj => leaf_setPage hk hj hst⟩
  have hget : getPage pt (archPageSize * k) = some e := he
  rw [archMmuUnmap, hget, bind_some, hst, leafPage, he]
  rfl

theorem unmapPages_eq (pt : Pagetable) (k : ℕ) (hk : k + rounds ≤ 2 ^ 36) :
    (∀ j < 2 ^ 36, leaf (unmapPages rounds pt (archPageSize * k)).1 j =
      if k ≤ j ∧ j < k + runLength (HasLeaf pt) rounds k then some 0 else leaf pt j) ∧
    (unmapPages rounds pt (archPageSize * k)).2 =
      (range' k (runLength (HasLeaf pt) rounds k)).map (leafPage pt) := by
  induction rounds generalizing pt k with
  | zero =>
    constructor
    · intro j _
      rw [if_neg (by simp only [runLength]; omega)]
      rfl
    · rfl
  | succ rounds ih =>
    rw [unmapPages, runLength]
    by_cases hlf : HasLeaf pt k
    · obtain ⟨pt', hum, hpt'⟩ := archMmuUnmap_some (by omega) hlf
      obtain ⟨ihleaf, ihold⟩ := ih pt' (k + 1) (by omega)
      -- The pages above are as they were.
      have hab : ∀ j, k < j → j < 2 ^ 36 → leaf pt' j = leaf pt j := by
        intro j hlt hj
        rw [hpt' j hj, if_neg (ne_of_gt hlt)]
      have hru : runLength (HasLeaf pt') rounds (k + 1) = runLength (HasLeaf pt) rounds (k + 1) := by
        apply runLength_congr
        intro i hi
        rw [HasLeaf, HasLeaf, hab _ (by omega) (by omega)]
      rw [hru] at ihleaf ihold
      rw [if_pos hlf, hum]
      constructor
      · intro j hj
        grind
      · refine congrArg _ (ihold.trans ?_)
        apply map_congr_left
        intro j hj
        have hrn := mem_range'_1.mp hj
        have hle : runLength (HasLeaf pt) rounds (k + 1) ≤ rounds := runLength_le
        rw [leafPage, leafPage, hab j (by omega) (by omega)]
    · rw [if_neg hlf, archMmuUnmap_none hlf]
      constructor
      · intro j _
        rw [if_neg (by omega)]
      · rfl

theorem Overlaps.pos (h : Overlaps virt len k) : 0 < len := by
  obtain ⟨a, hle, hlt, -⟩ := h
  omega

theorem overlaps_iff (hlen : 0 < len) : Overlaps virt len k ↔
    virt / archPageSize ≤ k ∧ k < virt / archPageSize + sizeInPages virt len := by
  simp only [Overlaps, sizeInPages, pagesFor, archPageSize]
  constructor
  · rintro ⟨a, hle, hlt, rfl⟩
    omega
  · rintro ⟨hle, hlt⟩
    exact ⟨max virt (4096 * k), by omega, by omega, by omega⟩

theorem range_le (h : virt + len ≤ 2 ^ 47) :
    virt / archPageSize + sizeInPages virt len ≤ 2 ^ 36 := by
  simp only [sizeInPages, pagesFor, archPageSize]
  omega

theorem unmapsDone_le (pt : Pagetable) (virt len : ℕ) :
    unmapsDone pt virt len ≤ sizeInPages virt len := runLength_le

theorem unmapWith_leaf (h : virt + len ≤ 2 ^ 47) (hk : k < 2 ^ 36) :
    leaf (unmapWith buf pt virt len).pagetable k =
      if virt / archPageSize ≤ k ∧ k < virt / archPageSize + unmapsDone pt virt len then some 0
      else leaf pt k := by
  have := (unmapPages_eq pt (virt / archPageSize) (range_le h)).1 k hk
  rwa [mul_comm] at this

theorem unmapWith_freed (h : virt + len ≤ 2 ^ 47) : (unmapWith buf pt virt len).freed =
      (range' (virt / archPageSize) (unmapsDone pt virt len)).map (leafPage pt) ++
      if unmapMaxArrayOnStack < sizeInPages virt len then freeMany buf (tmpPhysBufPages virt len)
      else [] := by
  have := (unmapPages_eq pt (virt / archPageSize) (range_le h)).2
  rw [mul_comm] at this
  exact congrArg (· ++ _) this

theorem hasLeaf_of_lt (hle : virt / archPageSize ≤ k)
    (hlt : k < virt / archPageSize + unmapsDone pt virt len) : ∃ e, leaf pt k = some e := by
  obtain ⟨i, rfl⟩ := Nat.exists_eq_add_of_le hle
  exact isSome_iff_exists.mp (runLength_holds (P := HasLeaf pt) (Nat.lt_of_add_lt_add_left hlt))

theorem leaf_unmapsDone (pt : Pagetable) (virt len : ℕ)
    (h : unmapsDone pt virt len < sizeInPages virt len) :
    leaf pt (virt / archPageSize + unmapsDone pt virt len) = none := by
  have := runLength_stops (P := HasLeaf pt) h
  simpa [HasLeaf, unmapsDone] using this

theorem count_map_eq_ncard {l : List ℕ} (hl : l.Nodup) (f : ℕ → Entry) :
    (l.map f).count P = {k | k ∈ l ∧ f k = P}.ncard := by
  have hst : {k | k ∈ l ∧ f k = P} = ((l.filter (f · == P)).toFinset : Set ℕ) := by
    ext k
    simp
  rw [hst, Set.ncard_coe_finset, toFinset_card_of_nodup (hl.filter _), List.count,
    countP_map, countP_eq_length_filter]
  rfl

def freedAt (pt : Pagetable) (virt len : ℕ) (P : Entry) : Set ℕ :=
  {k | (virt / archPageSize ≤ k ∧ k < virt / archPageSize + unmapsDone pt virt len) ∧
    leafPage pt k = P}

theorem count_freed (h : virt + len ≤ 2 ^ 47) (hbuf : FreshBuffer buf pt virt len)
    (hk : Overlaps virt len k) (hP : MapsTo pt P k) :
    (unmapWith buf pt virt len).freed.count P = (freedAt pt virt len P).ncard := by
  have hzr : (if unmapMaxArrayOnStack < sizeInPages virt len then
      freeMany buf (tmpPhysBufPages virt len) else []).count P = 0 := by
    apply count_eq_zero.mpr
    split
    · intro hme
      exact hbuf ‹_› P hme k hk hP
    · simp
  rw [unmapWith_freed h, count_append, hzr, add_zero, count_map_eq_ncard (nodup_range' ..)]
  simp only [freedAt, mem_range'_1]

theorem MapsTo.not_noLeaf (h : MapsTo pt P k) : ¬ NoLeaf pt k := by
  obtain ⟨e, he, hne, -⟩ := h
  rintro (hno | hzr)
  · simp [hno] at he
  · exact hne (some.inj (he.symm.trans hzr))

theorem MapsTo.leafPage_eq (h : MapsTo pt P k) : leafPage pt k = P := by
  obtain ⟨e, he, -, rfl⟩ := h
  rw [leafPage, he]
  rfl

theorem lt_of_mapsTo (hlen : 0 < len)
    (hcn : ∀ i j, Overlaps virt len i → Overlaps virt len j → i < j → leaf pt i = none →
      NoLeaf pt j)
    (hk : Overlaps virt len k) (hP : MapsTo pt P k) :
    k < virt / archPageSize + unmapsDone pt virt len := by
  have hrn := (overlaps_iff hlen).mp hk
  by_contra hge
  have hed := leaf_unmapsDone pt virt len (by omega)
  rcases Nat.eq_or_lt_of_le (Nat.le_of_not_lt hge) with heq | hlt
  · rw [heq] at hed
    exact hP.not_noLeaf (.inl hed)
  · refine hP.not_noLeaf (hcn _ k ((overlaps_iff hlen).mpr ?_) hk hlt hed)
    omega

theorem mapsTo_subset_freedAt (hlen : 0 < len)
    (hcn : ∀ i j, Overlaps virt len i → Overlaps virt len j → i < j → leaf pt i = none →
      NoLeaf pt j) :
    {k | Overlaps virt len k ∧ MapsTo pt P k} ⊆ freedAt pt virt len P := by
  rintro k ⟨hk, hP⟩
  exact ⟨⟨((overlaps_iff hlen).mp hk).1, lt_of_mapsTo hlen hcn hk hP⟩, hP.leafPage_eq⟩

theorem freedAt_finite : (freedAt pt virt len P).Finite := by
  apply (Set.finite_Iio (virt / archPageSize + unmapsDone pt virt len)).subset
  rintro k ⟨hk, -⟩
  exact hk.2

theorem freedAt_eq (hlen : 0 < len) (h : Unmappable pt virt len) (hi : Overlaps virt len i)
    (hP : MapsTo pt P i) : freedAt pt virt len P = {k | Overlaps virt len k ∧ MapsTo pt P k} := by
  apply Set.Subset.antisymm
  · rintro k ⟨⟨hle, hlt⟩, hpg⟩
    obtain ⟨e, he⟩ := hasLeaf_of_lt hle hlt
    have hk : Overlaps virt len k :=
      (overlaps_iff hlen).mpr ⟨hle, hlt.trans_le (Nat.add_le_add_left (unmapsDone_le _ _ _) _)⟩
    rw [leafPage, he] at hpg
    refine ⟨hk, e, he, ?_, hpg⟩
    rintro rfl
    obtain rfl : P = 0 := hpg.symm
    obtain ⟨j, hj, hov, hno⟩ := h.nullFree i k hi hk hP he
    obtain ⟨e, he⟩ := hasLeaf_of_lt ((overlaps_iff hlen).mp hov).1 (hj.trans hlt)
    simp [hno] at he
  · exact mapsTo_subset_freedAt hlen h.contiguous

theorem exact_of_unmappable (h : virt + len ≤ 2 ^ 47) (hbuf : FreshBuffer buf pt virt len)
    (hu : Unmappable pt virt len) : UnmapExact pt virt len (unmapWith buf pt virt len) := by
  constructor
  · intro k hk
    have hlen := hk.pos
    have hrn := (overlaps_iff hlen).mp hk
    have hbd := range_le h
    rw [NoLeaf, unmapWith_leaf h (by omega)]
    split
    · exact .inr rfl
    · by_contra hlf
      obtain ⟨e, he⟩ : ∃ e, leaf pt k = some e := ne_none_iff_exists'.mp (mt .inl hlf)
      have hP : MapsTo pt (e &&& addrMask) k := ⟨e, he, fun hz => hlf (.inr (hz ▸ he)), rfl⟩
      have := lt_of_mapsTo hlen hu.contiguous hk hP
      omega
  · intro k hk hov
    rw [unmapWith_leaf h hk]
    split
    · -- Only a page of an empty range is cleared and not overlapped.
      rename_i hrn
      have hdn := unmapsDone_le pt virt len
      obtain rfl : len = 0 := by
        by_contra hne
        exact hov ((overlaps_iff (by omega)).mpr (by omega))
      have hof : virt % archPageSize ≠ 0 ∧ k = virt / archPageSize := by
        simp only [sizeInPages, pagesFor, archPageSize] at hdn hrn ⊢
        omega
      obtain ⟨e, he⟩ := hasLeaf_of_lt hrn.1 hrn.2
      rcases hof.2 ▸ hu.nonempty rfl hof.1 with hno | hzr
      · simp [hno] at he
      · exact hzr.symm
    · rfl
  · intro P k hk hP
    rw [count_freed h hbuf hk hP, freedAt_eq hk.pos hu hk hP]

theorem contiguous_of_exact (h : virt + len ≤ 2 ^ 47)
    (hex : UnmapExact pt virt len (unmapWith buf pt virt len)) (hi : Overlaps virt len i)
    (hj : Overlaps virt len j) (hlt : i < j) (hno : leaf pt i = none) : NoLeaf pt j := by
  have hri := (overlaps_iff hi.pos).mp hi
  have hrj := (overlaps_iff hi.pos).mp hj
  have hbd := range_le h
  have hed : virt / archPageSize + unmapsDone pt virt len ≤ i := by
    by_contra hgt
    obtain ⟨e, he⟩ := hasLeaf_of_lt hri.1 (Nat.lt_of_not_le hgt)
    simp [hno] at he
  have := hex.cleared j hj
  rwa [NoLeaf, unmapWith_leaf h (by omega), if_neg (by omega)] at this

theorem unmappable_of_exact (h : virt + len ≤ 2 ^ 47) (hbuf : FreshBuffer buf pt virt len)
    (hex : UnmapExact pt virt len (unmapWith buf pt virt len)) : Unmappable pt virt len := by
  have hcn : ∀ i j, Overlaps virt len i → Overlaps virt len j → i < j → leaf pt i = none →
      NoLeaf pt j := fun i j hi hj hlt hno => contiguous_of_exact h hex hi hj hlt hno
  constructor
  · exact hcn
  · intro i j hi hj hP hzr
    by_contra hreach
    -- Page `0` is freed for entry `j` on top of all the entries that map it.
    have hrj := (overlaps_iff hi.pos).mp hj
    have hed : j < virt / archPageSize + unmapsDone pt virt len := by
      by_contra hge
      have hms := leaf_unmapsDone pt virt len (by omega)
      rcases Nat.eq_or_lt_of_le (Nat.le_of_not_lt hge) with heq | hlt
      · rw [heq, hzr] at hms
        simp at hms
      · exact hreach ⟨_, hlt, (overlaps_iff hi.pos).mpr (by omega), hms⟩
    have hme : j ∈ freedAt pt virt len 0 := ⟨⟨hrj.1, hed⟩, by rw [leafPage, hzr]; rfl⟩
    have hnt : j ∉ {k | Overlaps virt len k ∧ MapsTo pt 0 k} :=
      fun hj => hj.2.not_noLeaf (.inr hzr)
    have hmr : {k | Overlaps virt len k ∧ MapsTo pt 0 k}.ncard <
        (freedAt pt virt len 0).ncard := by
      apply Set.ncard_lt_ncard _ freedAt_finite
      exact ⟨mapsTo_subset_freedAt hi.pos hcn, fun hsb => hnt (hsb hme)⟩
    rw [← count_freed h hbuf hi hP, hex.freed 0 i hi hP] at hmr
    exact Nat.lt_irrefl _ hmr
  · intro hlen hof
    have hk : virt / archPageSize < 2 ^ 36 := by
      simp only [archPageSize]
      omega
    have hkp := hex.kept _ hk (fun hov => absurd hov.pos (by omega))
    rw [unmapWith_leaf h hk] at hkp
    split at hkp
    · exact .inr hkp.symm
    · have hsz : 0 < sizeInPages virt len := by
        simp only [sizeInPages, pagesFor, archPageSize] at hof ⊢
        omega
      have hdn : unmapsDone pt virt len = 0 := by omega
      have hms := leaf_unmapsDone pt virt len (hdn ▸ hsz)
      rw [hdn] at hms
      exact .inl hms

/-- The array is on the stack, or its pages are there. -/
def ArrayAllocated (alloc : ℕ → Option Entry) (virt len : ℕ) : Prop :=
  unmapMaxArrayOnStack < sizeInPages virt len → (alloc (tmpPhysBufPages virt len)).isSome

/-- In user space the call returns and is complete and exact if and only if its array is allocated
and nothing is mapped above a missing table of the range, up to page `0` and to empty ranges. -/
theorem unmap_exact_iff {alloc : ℕ → Option Entry} (h : virt + len ≤ 2 ^ 47)
    (hbuf : ∀ buf, alloc (tmpPhysBufPages virt len) = some buf → FreshBuffer buf pt virt len) :
    (∃ r, comMmVmmUnmap alloc pt virt len = some r ∧ UnmapExact pt virt len r) ↔
      ArrayAllocated alloc virt len ∧ Unmappable pt virt len := by
  have hexact {buf : Entry} (hfresh : FreshBuffer buf pt virt len) :
      UnmapExact pt virt len (unmapWith buf pt virt len) ↔ Unmappable pt virt len :=
    ⟨unmappable_of_exact h hfresh, exact_of_unmappable h hfresh⟩
  unfold comMmVmmUnmap ArrayAllocated
  split_ifs with hlong
  · cases halloc : alloc (tmpPhysBufPages virt len) with
    | none => simp [hlong]
    | some buf => simp [hlong, hexact (hbuf buf halloc)]
  · simp [hlong, hexact fun hln => absurd hln hlong]

def sampleTable (maps : List (ℕ × Entry)) : Pagetable :=
  maps.foldl (fun pt (k, P) => archMmuMap pt (archPageSize * k) P dataFlags) (RadixTable.blank 0 3)

theorem unmap_exact_two_pages :
    ∃ r, comMmVmmUnmap (fun _ => none)
        (sampleTable [(0x10, 0x9000), (0x11, 0xa000), (0x12, 0xb000)]) 0x10800 0x1000 = some r ∧
      UnmapExact (sampleTable [(0x10, 0x9000), (0x11, 0xa000), (0x12, 0xb000)]) 0x10800 0x1000 r := by
  refine (unmap_exact_iff (by decide) (fun _ hno => by cases hno)).mpr
    ⟨fun hln => absurd hln (by decide), ?_⟩
  have hps : ∀ k, Overlaps 0x10800 0x1000 k → k = 0x10 ∨ k = 0x11 := by
    intro k hk
    have := (overlaps_iff (by decide)).mp hk
    simp only [sizeInPages, pagesFor, archPageSize] at this
    omega
  have hlf : ∀ k, Overlaps 0x10800 0x1000 k →
      ∃ e, leaf (sampleTable [(0x10, 0x9000), (0x11, 0xa000), (0x12, 0xb000)]) k = some e ∧
        e ≠ 0 := by
    intro k hk
    rcases hps k hk with rfl | rfl
    · exact ⟨0x9000 ||| dataFlags, by decide +kernel, by decide⟩
    · exact ⟨0xa000 ||| dataFlags, by decide +kernel, by decide⟩
  constructor
  · intro i j hi _ _ hno
    obtain ⟨e, he, -⟩ := hlf i hi
    exact absurd (hno.symm.trans he) (some_ne_none e).symm
  · intro i j _ hj _ hzr
    obtain ⟨e, he, hne⟩ := hlf j hj
    exact absurd (some.inj (he.symm.trans hzr)) hne
  · intro hlen
    simp at hlen

/-- The first page of the range has no page table, so the second one stays mapped and is not
freed. -/
theorem mapped_above_missing_table : ∃ pt r, MapsTo pt 0x9000 0x200 ∧
    Overlaps 0x1ff000 0x2000 0x200 ∧ comMmVmmUnmap (fun _ => none) pt 0x1ff000 0x2000 = some r ∧
      MapsTo r.pagetable 0x9000 0x200 ∧ r.freed = [] ∧ ¬ UnmapExact pt 0x1ff000 0x2000 r := by
  have hov : Overlaps 0x1ff000 0x2000 0x200 := ⟨0x200000, by decide, by decide, by decide⟩
  have haf : MapsTo (unmapWith 0 (sampleTable [(0x200, 0x9000)]) 0x1ff000 0x2000).pagetable
      0x9000 0x200 := ⟨0x9000 ||| dataFlags, by decide +kernel, by decide, by decide⟩
  refine ⟨sampleTable [(0x200, 0x9000)], _, ⟨0x9000 ||| dataFlags, by decide +kernel, by decide,
    by decide⟩, hov, rfl, haf, by decide +kernel, ?_⟩
  intro h
  exact haf.not_noLeaf (h.cleared _ hov)

def archMmuKernelspaceStart : BitVec 64 := 0xffff800000000000

def visited : ℕ → Pagetable → ℕ → List ℕ
  | 0, _, _ => []
  | rounds + 1, pt, virt => virt ::
    match archMmuUnmap pt virt with
    | none => []
    | some (_, pt) => visited rounds pt (virt + archPageSize)

inductive Munmap where
  | einval (pt : Pagetable)
  | called (pt : Pagetable) (visited : List ℕ)

/-- The first tests of `com_sys_syscall_munmap`, with a sum that wraps around. -/
abbrev Rejected (addr len : BitVec 64) : Prop :=
  addr.toNat % archPageSize ≠ 0 ∨ archMmuKernelspaceStart < addr ∨ len = 0 ∨
    archMmuKernelspaceStart < addr + len

/-- The number of pages wraps around as well; the offset into the first page is zero. -/
def comSysSyscallMunmap (pt : Pagetable) (addr len : BitVec 64) : Munmap :=
  if Rejected addr len then .einval pt
  else
    let pages := (len + BitVec.ofNat 64 (archPageSize - 1)).toNat / archPageSize
    .called (unmapPages pages pt addr.toNat).1 (visited pages pt addr.toNat)

/-- A range below the kernel of which no entry of the upper half is used, or no change. -/
def StaysInUser (pt : Pagetable) (addr len : BitVec 64) : Munmap → Prop
  | .einval pt' => pt' = pt
  | .called _ seen => addr.toNat + len.toNat ≤ archMmuKernelspaceStart.toNat ∧
      ∀ v ∈ seen, pageNo v < 2 ^ 35

theorem archMmuUnmap_isSome (h : archMmuUnmap pt virt = some (e, pt')) (a : ℕ) :
    (getPage pt virt).isSome ∧ ((getPage pt' a).isSome ↔ (getPage pt a).isSome) := by
  obtain ⟨old, hold, h⟩ := bind_eq_some_iff.mp h
  obtain ⟨pt'', hst, h⟩ := map_eq_some_iff.mp h
  cases h
  refine ⟨hold ▸ rfl, ?_⟩
  rw [getPage_setPage hst]
  split_ifs with hpg
  · rw [getPage, pathOf_eq_iff.mpr hpg, ← getPage, hold]
    rfl
  · rfl

theorem mem_visited {v : ℕ} : v ∈ visited rounds pt virt ↔ ∃ i < rounds,
    v = virt + i * archPageSize ∧ ∀ j < i, (getPage pt (virt + j * archPageSize)).isSome := by
  induction rounds generalizing pt virt with
  | zero => simp [visited]
  | succ rounds ih =>
    rw [visited, mem_cons, Nat.exists_lt_succ_left]
    refine or_congr (by simp) ?_
    cases hun : archMmuUnmap pt virt with
    | none =>
      refine iff_of_false not_mem_nil ?_
      rintro ⟨i, -, -, h⟩
      have hfs := h 0 (Nat.succ_pos i)
      rw [Nat.zero_mul, Nat.add_zero] at hfs
      obtain ⟨pt', hst⟩ := isSome_iff_exists.mp (setPage_isSome.mpr hfs)
      obtain ⟨e, he⟩ := isSome_iff_exists.mp hfs
      rw [archMmuUnmap, he, bind_some, hst] at hun
      cases hun
    | some r =>
      have hke := archMmuUnmap_isSome hun
      have had : ∀ i, virt + archPageSize + i * archPageSize = virt + (i + 1) * archPageSize := by
        intro i
        rw [Nat.succ_mul]
        omega
      simp only [ih, hke, had, Nat.forall_lt_succ_left]
      have hfs : (getPage pt (virt + 0 * archPageSize)).isSome := by
        exact (hke 0).1
      simp only [hfs, true_and]

/-- The system call stays in user space if and only if it is rejected, or its range does not wrap
around and none of its pages up to the first one without tables is in the upper half. -/
theorem munmap_in_user_iff (pt : Pagetable) (addr len : BitVec 64) :
    StaysInUser pt addr len (comSysSyscallMunmap pt addr len) ↔
      Rejected addr len ∨ addr.toNat + len.toNat < 2 ^ 64 ∧ ∀ i, i * archPageSize < len.toNat →
        (∀ j < i, (getPage pt (addr.toNat + j * archPageSize)).isSome) →
          pageNo (addr.toNat + i * archPageSize) < 2 ^ 35 := by
  rw [comSysSyscallMunmap]
  split_ifs with hre
  · exact iff_of_true rfl (.inl hre)
  · rw [or_iff_right hre]
    have hsa : archMmuKernelspaceStart.toNat = 0xffff800000000000 := rfl
    simp only [Rejected, not_or, BitVec.not_lt, BitVec.le_def, BitVec.toNat_add, hsa] at hre
    simp only [StaysInUser, mem_visited, hsa]
    have hps : addr.toNat + len.toNat < 2 ^ 64 → ∀ i, i * archPageSize < len.toNat ↔
        i < (len + BitVec.ofNat 64 (archPageSize - 1)).toNat / archPageSize := by
      intro hlt i
      rw [BitVec.toNat_add, BitVec.toNat_ofNat, archPageSize]
      omega
    constructor
    · rintro ⟨hle, hsn⟩
      have hlt : addr.toNat + len.toNat < 2 ^ 64 := by omega
      exact ⟨hlt, fun i hi hj => hsn _ ⟨i, (hps hlt i).mp hi, rfl, hj⟩⟩
    · rintro ⟨hlt, hsn⟩
      refine ⟨by omega, ?_⟩
      rintro _ ⟨i, hi, rfl, hj⟩
      exact hsn i ((hps hlt i).mpr hi) hj

/-- A length that wraps around, and an address in the upper half of a table. -/
theorem munmap_outside_user : ¬ StaysInUser (RadixTable.blank 0 3) 0x1000 0xfffffffffffff000
      (comSysSyscallMunmap (RadixTable.blank 0 3) 0x1000 0xfffffffffffff000) ∧
    ¬ StaysInUser (RadixTable.blank 0 3) 0x800000000000 0x1000
      (comSysSyscallMunmap (RadixTable.blank 0 3) 0x800000000000 0x1000) := by
  constructor
  · exact fun h => absurd h.1 (by decide)
  · intro h
    have hpg := h.2 0x800000000000 (mem_visited.mpr ⟨0, by decide, rfl, fun j hj => by cases hj⟩)
    exact absurd hpg (by decide)

end VmmUnmap
