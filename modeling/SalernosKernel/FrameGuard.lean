import SalernosKernel.ElfSegment

/-! # Guarded page frames

Frames that user space may read and not write. A user page that shows one is protected and has a
reference of its own, besides that of the owner. -/
namespace FrameGuard

open PageTable PageTableDuplicate PageFaultPrefault ForkMemory List Option BitVec
open FileMapping
open BitVec (ofNat)
open PhysicalMemory (PageMetaArray PageMeta MetaRef comMmPmmHold comMmPmmFree comMmPmmIsShared
  pageMetaGet takenMeta)

def Shows (f : ℕ) (e : Entry) : Prop := present e ∧ frame e = f
  deriving Decidable

def pagesOf (pt : Pagetable) (f : ℕ) : Finset ℕ :=
  (Finset.range (2 ^ 35)).filter fun n => Shows f (leaf pt (archPageSize * n))

def shown (pt : Pagetable) (f : ℕ) : ℕ := (pagesOf pt f).card

def shownIn (tables : List Pagetable) (f : ℕ) : ℕ := (tables.map (shown · f)).sum

structure Guarded (F : Set ℕ) (s : System) : Prop where
  array : s.pageMeta.reservedStart ≤ s.pageMeta.extendedLen
  fake : s.pageMeta.fakeEntry.state ≠ .free
  taken : ∀ f ∈ F, f < s.pageMeta.reservedStart ∧ (s.pageMeta.entries f).state = .taken
  counted : ∀ f ∈ F, shownIn s.tables f < (s.pageMeta.entries f).numRef
  readOnly : ∀ f ∈ F, ∀ pt ∈ s.tables, ∀ va < 2 ^ 47, Shows f (leaf pt va) →
    ¬ has archMmuFlagsWrite (leaf pt va)

def SameOn (F : Set ℕ) (mem mem' : ℕ → BitVec 8) : Prop :=
  ∀ f ∈ F, ∀ k < archPageSize, mem' (archPageSize * f + k) = mem (archPageSize * f + k)

variable {F : Set ℕ} {s s' : System} {pt pt' : Pagetable} {i v va f : ℕ} {e P flags newPhys : Entry}
  {a a' : PageMetaArray} {k n p : ℕ}

theorem mem_pagesOf : n ∈ pagesOf pt f ↔ n < 2 ^ 35 ∧ Shows f (leaf pt (archPageSize * n)) := by
  rw [pagesOf, Finset.mem_filter, Finset.mem_range]

theorem pageNo_page (h : n < 2 ^ 35) : pageNo (archPageSize * n) = n := by
  unfold pageNo archPageSize
  omega

theorem shows_map (hfl : flags &&& addrMask = 0#64)
    (h : Shows f (leaf (archMmuMap pt v P flags) va)) :
    (pageNo va = pageNo v ∧ frame P = f) ∨
      pageNo va ≠ pageNo v ∧ leaf (archMmuMap pt v P flags) va = leaf pt va := by
  rw [leaf_archMmuMap] at h ⊢
  by_cases hpg : pageNo va = pageNo v
  · rw [if_pos hpg, Shows, frame, physPage_entry hfl] at h
    exact .inl ⟨hpg, h.2⟩
  · exact .inr ⟨hpg, if_neg hpg⟩

theorem shown_map_le (pt : Pagetable) (v : ℕ) (P : Entry) (f : ℕ)
    (hfl : flags &&& addrMask = 0#64) :
    shown (archMmuMap pt v P flags) f ≤ shown pt f + if frame P = f then 1 else 0 := by
  have hsb : ∀ n ∈ pagesOf (archMmuMap pt v P flags) f,
      (n = pageNo v ∧ frame P = f) ∨ n ∈ pagesOf pt f := by
    intro n hn
    obtain ⟨hlt, hsh⟩ := mem_pagesOf.mp hn
    rcases shows_map hfl hsh with ⟨hpg, hP⟩ | ⟨-, hlf⟩
    · rw [pageNo_page hlt] at hpg
      exact .inl ⟨hpg, hP⟩
    · rw [hlf] at hsh
      exact .inr (mem_pagesOf.mpr ⟨hlt, hsh⟩)
  split_ifs with hP
  · have his : pagesOf (archMmuMap pt v P flags) f ⊆ insert (pageNo v) (pagesOf pt f) :=
      fun n hn => Finset.mem_insert.mpr ((hsb n hn).imp And.left id)
    exact (Finset.card_le_card his).trans (Finset.card_insert_le _ _)
  · rw [add_zero]
    exact Finset.card_le_card fun n hn => (hsb n hn).resolve_left fun h => hP h.2

theorem pageNo_mul_div (v : ℕ) : pageNo (archPageSize * (v / archPageSize)) = pageNo v := by
  unfold pageNo archPageSize
  omega

theorem leaf_page (pt : Pagetable) (v : ℕ) :
    leaf pt (archPageSize * (v / archPageSize)) = leaf pt v := by
  rw [leaf, leaf, getPage, getPage, pathOf_eq_iff.mpr (pageNo_mul_div v)]

theorem page_mem_pagesOf (hv : v < 2 ^ 47) (h : Shows f (leaf pt v)) :
    v / archPageSize ∈ pagesOf pt f := by
  rw [mem_pagesOf, leaf_page]
  refine ⟨?_, h⟩
  unfold archPageSize
  omega

theorem shown_map_lt (hfl : flags &&& addrMask = 0#64) (hv : v < 2 ^ 47)
    (hold : Shows f (leaf pt v)) (hP : frame P ≠ f) :
    shown (archMmuMap pt v P flags) f + 1 ≤ shown pt f := by
  have hme := page_mem_pagesOf hv hold
  rw [shown, shown, ← Finset.card_erase_add_one hme]
  refine Nat.add_le_add_right (Finset.card_le_card fun n hn' => ?_) 1
  obtain ⟨hlt, hsh⟩ := mem_pagesOf.mp hn'
  rcases shows_map hfl hsh with ⟨-, hP'⟩ | ⟨hne, hlf'⟩
  · exact absurd hP' hP
  · rw [hlf'] at hsh
    refine Finset.mem_erase.mpr ⟨?_, mem_pagesOf.mpr ⟨hlt, hsh⟩⟩
    rintro rfl
    exact hne (pageNo_mul_div v)

theorem sum_set {l : List ℕ} {x : ℕ} (h : l[i]? = some x) (y : ℕ) :
    (l.set i y).sum + x = l.sum + y := by
  induction l generalizing i with
  | nil => simp at h
  | cons z l ih =>
    cases i with
    | zero =>
      obtain rfl : z = x := by simpa using h
      simp only [set_cons_zero, sum_cons]
      omega
    | succ i =>
      have hrs := ih (by simpa using h)
      simp only [set_cons_succ, sum_cons]
      omega

variable {tables : List Pagetable}

theorem shownIn_set (h : tables[i]? = some pt) (pt' : Pagetable) (f : ℕ) :
    shownIn (tables.set i pt') f + shown pt f = shownIn tables f + shown pt' f := by
  rw [shownIn, map_set]
  exact sum_set (by rw [getElem?_map, h]; rfl) _

theorem shown_le_shownIn (h : tables[i]? = some pt) (f : ℕ) : shown pt f ≤ shownIn tables f :=
  le_sum_of_mem (mem_map_of_mem (mem_of_getElem? h))

structure MetaKept (F : Set ℕ) (a a' : PageMetaArray) : Prop where
  reservedStart : a'.reservedStart = a.reservedStart
  extendedLen : a'.extendedLen = a.extendedLen
  fake : a.fakeEntry.state ≠ .free → a'.fakeEntry.state ≠ .free
  state : ∀ f ∈ F, (a'.entries f).state = (a.entries f).state

theorem MetaKept.refl (F : Set ℕ) (a : PageMetaArray) : MetaKept F a a :=
  ⟨rfl, rfl, id, fun _ _ => rfl⟩

theorem MetaKept.trans {b : PageMetaArray} (h : MetaKept F a b) (h' : MetaKept F b a') :
    MetaKept F a a' where
  reservedStart := h'.reservedStart.trans h.reservedStart
  extendedLen := h'.extendedLen.trans h.extendedLen
  fake := h'.fake ∘ h.fake
  state f hf := (h'.state f hf).trans (h.state f hf)

variable {ref : MetaRef}

theorem renumber (hgt : pageMetaGet a p = some ref) (hF : ∀ f ∈ F, f < a.reservedStart)
    (count : ℕ → ℕ) :
    MetaKept F a (a.fill ref { a.read ref with numRef := count (a.read ref).numRef } 1) ∧ ∀ f ∈ F,
      ((a.fill ref { a.read ref with numRef := count (a.read ref).numRef } 1).entries f).numRef =
        if p / archPageSize = f then count (a.entries f).numRef else (a.entries f).numRef := by
  rw [pageMetaGet] at hgt
  split_ifs at hgt with hln hstart
  · cases hgt
    have hen : ∀ m f, (a.fill (.entry (p / archPageSize)) m 1).entries f =
        if f = p / archPageSize then m else a.entries f := by
      intro m f
      rw [fill_entry]
      exact Function.update_apply ..
    refine ⟨⟨rfl, rfl, id, fun f _ => ?_⟩, fun f _ => ?_⟩
    · refine (congrArg PageMeta.state (hen _ f)).trans ?_
      split_ifs with hf
      · rw [hf]
        rfl
      · rfl
    · refine (congrArg PageMeta.numRef (hen _ f)).trans ?_
      by_cases hf : f = p / archPageSize
      · rw [if_pos hf, if_pos hf.symm, hf]
        rfl
      · rw [if_neg hf, if_neg (Ne.symm hf)]
  · cases hgt
    refine ⟨⟨rfl, rfl, id, fun f _ => rfl⟩, fun f hf => ?_⟩
    rw [if_neg]
    · rfl
    · rintro rfl
      exact hstart (hF _ hf)

theorem hold_spec (h : comMmPmmHold a p = some a') (hF : ∀ f ∈ F, f < a.reservedStart) :
    MetaKept F a a' ∧ ∀ f ∈ F,
      (a.entries f).numRef + (if p / archPageSize = f then 1 else 0) < 2 ^ 64 →
      (a'.entries f).numRef = (a.entries f).numRef + if p / archPageSize = f then 1 else 0 := by
  obtain ⟨ref, hgt, h⟩ := bind_eq_some_iff.mp h
  dsimp only at h
  split_ifs at h
  obtain rfl := some.inj h
  obtain ⟨hkp, hnm⟩ := renumber hgt hF (PhysicalMemory.sizeAdd · 1)
  refine ⟨hkp, fun f hf hlt => (hnm f hf).trans ?_⟩
  split_ifs at hlt ⊢
  · exact Nat.mod_eq_of_lt hlt
  · rfl

theorem free_spec (h : comMmPmmFree a p = some a') (hF : ∀ f ∈ F, f < a.reservedStart) :
    MetaKept F a a' ∧ ∀ f ∈ F, 0 < (a.entries f).numRef → (a.entries f).numRef ≤
      (a'.entries f).numRef + if p / archPageSize = f then 1 else 0 := by
  obtain ⟨ref, hgt, h⟩ := bind_eq_some_iff.mp h
  dsimp only at h
  split_ifs at h
  · obtain rfl := some.inj h
    obtain ⟨hkp, hnm⟩ := renumber hgt hF PhysicalMemory.sizeDec
    refine ⟨hkp, fun f hf hps => ?_⟩
    rw [hnm f hf]
    split_ifs
    · rw [PhysicalMemory.sizeDec, if_neg hps.ne']
      omega
    · exact Nat.le_refl _
  · obtain rfl := some.inj h
    exact ⟨.refl F a, fun f _ _ => Nat.le_add_right _ _⟩

def holds (f : ℕ) (held : List Entry) : ℕ := (held.map fun p => p.toNat / archPageSize).count f

theorem holds_singleton (f : ℕ) (p : Entry) :
    holds f [p] = if p.toNat / archPageSize = f then 1 else 0 := by
  rw [holds, map_singleton, count_singleton]
  simp only [beq_iff_eq]

theorem holds_append (f : ℕ) (l l' : List Entry) : holds f (l ++ l') = holds f l + holds f l' := by
  rw [holds, map_append, count_append]
  rfl

theorem holds_spec {held : List Entry}
    (h : held.foldlM (fun a page => comMmPmmHold a page.toNat) a = some a')
    (hF : ∀ f ∈ F, f < a.reservedStart) (hlt : ∀ f ∈ F, (a.entries f).numRef + holds f held < 2 ^ 64) :
    MetaKept F a a' ∧ ∀ f ∈ F, (a'.entries f).numRef = (a.entries f).numRef + holds f held := by
  induction held generalizing a with
  | nil =>
    obtain rfl := some.inj h
    exact ⟨.refl F a, fun f _ => rfl⟩
  | cons p held ih =>
    obtain ⟨b, hb, h⟩ := bind_eq_some_iff.mp h
    obtain ⟨hkp, hnm⟩ := hold_spec hb hF
    have hcn : ∀ f, holds f (p :: held) =
        (if p.toNat / archPageSize = f then 1 else 0) + holds f held := by
      intro f
      rw [← holds_singleton, ← holds_append, singleton_append]
    have hb_num : ∀ f ∈ F, (b.entries f).numRef + holds f held =
        (a.entries f).numRef + holds f (p :: held) := by
      intro f hf
      have hbd := hlt f hf
      rw [hcn] at hbd ⊢
      rw [hnm f hf (by omega)]
      omega
    obtain ⟨hkp', hnm'⟩ := ih h (fun f hf => hkp.reservedStart ▸ hF f hf)
      fun f hf => (hb_num f hf).trans_lt (hlt f hf)
    exact ⟨hkp.trans hkp', fun f hf => (hnm' f hf).trans (hb_num f hf)⟩

theorem Guarded.set_table (h : Guarded F s) (ht : s.tables[i]? = some pt) (mem : ℕ → BitVec 8)
    (ha : MetaKept F s.pageMeta a)
    (hct : ∀ f ∈ F, shown pt' f + (s.pageMeta.entries f).numRef ≤ shown pt f + (a.entries f).numRef)
    (hlf : ∀ f ∈ F, ∀ va < 2 ^ 47, Shows f (leaf pt' va) → ¬ has archMmuFlagsWrite (leaf pt' va)) :
    Guarded F ⟨a, mem, s.tables.set i pt'⟩ where
  array := by
    rw [ha.reservedStart, ha.extendedLen]
    exact h.array
  fake := ha.fake h.fake
  taken f hf := by
    rw [ha.reservedStart]
    exact ⟨(h.taken f hf).1, (ha.state f hf).trans (h.taken f hf).2⟩
  counted f hf := by
    change shownIn (s.tables.set i pt') f < (a.entries f).numRef
    have hst := shownIn_set ht pt' f
    have hold := h.counted f hf
    have hnw := hct f hf
    omega
  readOnly f hf pt₀ hpt₀ va hva hsh := by
    rcases mem_or_eq_of_mem_set hpt₀ with hme | rfl
    · exact h.readOnly f hf pt₀ hme va hva hsh
    · exact hlf f hf va hva hsh

theorem Guarded.takeFree (h : Guarded F s) (htk : takeFree s.pageMeta p = some a) :
    p / archPageSize ∉ F ∧ MetaKept F s.pageMeta a ∧ ∀ f ∈ F, a.entries f = s.pageMeta.entries f := by
  obtain ⟨-, hfe, rfl⟩ := takeFree_eq h.fake htk
  have hnt : p / archPageSize ∉ F := by
    intro hp
    rw [(h.taken _ hp).2] at hfe
    cases hfe
  have hsm : ∀ f ∈ F, (setMeta s.pageMeta (p / archPageSize) takenMeta).entries f =
      s.pageMeta.entries f := by
    intro f hf
    have hne : f ≠ p / archPageSize := fun heq => hnt (heq ▸ hf)
    exact Function.update_of_ne hne ..
  exact ⟨hnt, ⟨rfl, rfl, id, fun f hf => congrArg PageMeta.state (hsm f hf)⟩, hsm⟩

structure Extends (F : Set ℕ) (pt pt' : Pagetable) (n : ℕ → ℕ) : Prop where
  shown : ∀ f ∈ F, shown pt' f ≤ shown pt f + n f
  leaf : ∀ f ∈ F, ∀ va, Shows f (leaf pt' va) →
    leaf pt' va = leaf pt va ∨ ¬ has archMmuFlagsWrite (leaf pt' va)

theorem Extends.refl (F : Set ℕ) (pt : Pagetable) (n : ℕ → ℕ) : Extends F pt pt n :=
  ⟨fun _ _ => Nat.le_add_right _ _, fun _ _ _ _ => .inl rfl⟩

variable {m : ℕ → ℕ}

theorem Extends.mono {n : ℕ → ℕ} (h : Extends F pt pt' n) (hm : ∀ f ∈ F, n f ≤ m f) :
    Extends F pt pt' m :=
  ⟨fun f hf => (h.shown f hf).trans (Nat.add_le_add_left (hm f hf) _), h.leaf⟩

theorem Extends.trans {pt₀ : Pagetable} {n n' : ℕ → ℕ} (h : Extends F pt₀ pt n)
    (h' : Extends F pt pt' n') (hm : ∀ f ∈ F, n f + n' f ≤ m f) : Extends F pt₀ pt' m where
  shown f hf := by
    have hle := h.shown f hf
    have hle' := h'.shown f hf
    have hsu := hm f hf
    omega
  leaf f hf va hsh := by
    rcases h'.leaf f hf va hsh with heq | hro
    · rw [heq] at hsh ⊢
      exact h.leaf f hf va hsh
    · exact .inr hro

theorem write_entry (phys flags : Entry) :
    has archMmuFlagsWrite ((phys &&& addrMask) ||| flags) = has archMmuFlagsWrite flags := by
  rw [write_eq, has_twoPow 1 _ (by decide), has_twoPow 1 _ (by decide), getLsbD_or,
    getLsbD_and, getLsbD_addrMask 1 (by decide)]
  simp

theorem Extends.map (pt : Pagetable) (v : ℕ) (hfl : flags &&& addrMask = 0#64)
    (hP : frame P ∈ F → ¬ has archMmuFlagsWrite flags) :
    Extends F pt (archMmuMap pt v P flags) fun f => if frame P = f then 1 else 0 where
  shown f _ := shown_map_le pt v P f hfl
  leaf f hf va hsh := by
    rcases shows_map hfl hsh with ⟨hpg, rfl⟩ | ⟨-, hlf⟩
    · right
      rw [leaf_archMmuMap, if_pos hpg, write_entry]
      exact hP hf
    · exact .inl hlf

theorem Extends.mapPages (pt : Pagetable) (v : ℕ) (hfl : flags &&& addrMask = 0#64)
    (hP : ∀ k < n, frame (P + ofNat 64 (archPageSize * k)) ∉ F) :
    Extends F pt (mapPages pt v P flags n) fun _ => 0 := by
  induction n with
  | zero => exact .refl F pt _
  | succ n ih =>
    rw [ForkMemory.mapPages, range_succ, foldl_append]
    have hn := hP n (Nat.lt_succ_self n)
    refine (ih fun k hk => hP k (Nat.lt_succ_of_lt hk)).trans
      (.map _ _ hfl fun hme => absurd hme hn) fun f hf => ?_
    rw [if_neg (by rintro rfl; exact hn hf)]

theorem Guarded.readOnly_extend {n : ℕ → ℕ} (h : Guarded F s) (ht : s.tables[i]? = some pt)
    (hx : Extends F pt pt' n) : ∀ f ∈ F, ∀ va < 2 ^ 47, Shows f (leaf pt' va) →
      ¬ has archMmuFlagsWrite (leaf pt' va) := by
  intro f hf va hva hsh
  rcases hx.leaf f hf va hsh with heq | hro
  · rw [heq] at hsh ⊢
    exact h.readOnly f hf pt (mem_of_getElem? ht) va hva hsh
  · exact hro

theorem Guarded.extend {n : ℕ → ℕ} (h : Guarded F s) (ht : s.tables[i]? = some pt)
    (mem : ℕ → BitVec 8) (ha : MetaKept F s.pageMeta a) (hx : Extends F pt pt' n)
    (hn : ∀ f ∈ F, (s.pageMeta.entries f).numRef + n f ≤ (a.entries f).numRef) :
    Guarded F ⟨a, mem, s.tables.set i pt'⟩ := by
  refine h.set_table ht mem ha (fun f hf => ?_) (h.readOnly_extend ht hx)
  have hsw := hx.shown f hf
  have hnm := hn f hf
  omega

/-- A one-byte store of a user thread, tried again after a fault. No result is an address without a
page, or a failed assertion. -/
def userStore (s : System) (i va : ℕ) (b : BitVec 8) (newPhys : Entry) : Option System := do
  let pt ← s.tables[i]?
  let e ← userEntry pt va
  if has archMmuFlagsWrite e then some (storeByte s e va b)
  else
    let c ← x8664MmuFaultIsr pt (ofNat 64 va)
    let s ← comMmVmmHandleFault s i pt c newPhys
    let pt ← s.tables[i]?
    let e ← userEntry pt va
    some (if has archMmuFlagsWrite e then storeByte s e va b else s)

def Allocates (s : System) (c : FaultCall) : Prop :=
  comMmVmmFaultAttrMap &&& c.attr ≠ 0 ∨ comMmVmmFaultAttrCow &&& c.attr ≠ 0 ∧
    comMmPmmIsShared s.pageMeta (c.phys.toNat / archPageSize * archPageSize) = some true

structure Fresh (a : PageMetaArray) (newPhys : Entry) (n : ℕ) : Prop where
  aligned : newPhys.toNat % archPageSize = 0
  lt : newPhys.toNat + archPageSize * n ≤ 2 ^ 63
  free : ∀ k < n, (a.entries (newPhys.toNat / archPageSize + k)).state = .free

theorem Fresh.frame (h : Fresh a newPhys n) (hk : k < n) :
    frame (newPhys + ofNat 64 (archPageSize * k)) = newPhys.toNat / archPageSize + k := by
  have hlt : newPhys.toNat + archPageSize * k < 2 ^ 63 :=
    (Nat.add_lt_add_left (Nat.mul_lt_mul_of_pos_left hk (by decide)) _).trans_le h.lt
  have hna : (newPhys + ofNat 64 (archPageSize * k)).toNat =
      newPhys.toNat + archPageSize * k := ElfSegment.toNat_add_ofNat (by omega)
  rw [PageTableDuplicate.frame, ElfSegment.physPage_of_aligned, hna,
    Nat.add_mul_div_left _ _ (by decide)]
  · rw [hna, Nat.add_mul_mod_self_left, h.aligned]
  · rwa [hna]

theorem Fresh.not_mem (h : Fresh s.pageMeta newPhys n) (hg : Guarded F s) (hk : k < n) :
    newPhys.toNat / archPageSize + k ∉ F := by
  intro hme
  have hfe := h.free k hk
  rw [(hg.taken _ hme).2] at hfe
  cases hfe

theorem mmuFlagsHint_and_addrMask (e : Entry) : mmuFlagsHint e &&& addrMask = 0#64 := by
  apply eq_of_getLsbD_eq
  intro j hj
  rw [mmuFlagsHint, write_eq, private_eq, nocopy_eq, getLsbD_and, getLsbD_addrMask j hj,
    getLsbD_zero]
  by_cases hms : 12 ≤ j ∧ j < 63
  · have hcr : (e &&& ~~~addrMask).getLsbD j = false := by
      rw [getLsbD_and, getLsbD_not, getLsbD_addrMask j hj]
      simp [hms]
    have hon : (j == 1) = false := beq_false_of_ne (by omega)
    split_ifs <;> simp [getLsbD_clear _ _ j hj, getLsbD_set _ _ j hj, hcr, hon]
  · simp [hms]

section Store

variable (h : Guarded F s) (hpt : s.tables[i]? = some pt) (he : userEntry pt va = some e)
include he

theorem leaf_of_userEntry : leaf pt va = e := by
  rw [leaf, getPage_of_userEntry he]
  rfl

theorem shows_of_userEntry : Shows (frame e) (leaf pt va) := by
  rw [leaf_of_userEntry he]
  exact ⟨(walk_of_userLeaf he).2, rfl⟩

variable {c : FaultCall}

theorem faultIsr_flags (hva : va < 2 ^ 47)
    (hc : x8664MmuFaultIsr pt (ofNat 64 va) = some c) :
    c.mmuFlagsHint = mmuFlagsHint e ∧ c.attr = vmmAttr e := by
  rw [x8664MmuFaultIsr, BitVec.toNat_ofNat, Nat.mod_eq_of_lt (by omega), getPage_of_userEntry he] at hc
  obtain rfl := some.inj hc
  exact ⟨rfl, rfl⟩

include h hpt

theorem sameOn_storeByte (hva : va < 2 ^ 47) (hw : has archMmuFlagsWrite e) (b : BitVec 8) :
    SameOn F s.mem (storeByte s e va b).mem := by
  intro f hf k hk
  refine Function.update_of_ne (fun heq => ?_) ..
  have hfm : frame e = f := by
    rw [← physPage_dvd] at heq
    unfold archPageSize at *
    omega
  refine h.readOnly f hf pt (mem_of_getElem? hpt) va hva (hfm ▸ shows_of_userEntry he) ?_
  rwa [leaf_of_userEntry he]

omit he hpt in
theorem Guarded.takeMany {n : ℕ} (hfr : Fresh s.pageMeta newPhys n)
    (htk : takeMany s.pageMeta newPhys.toNat n = some a) :
    MetaKept F s.pageMeta a ∧ ∀ f ∈ F, a.entries f = s.pageMeta.entries f := by
  rw [ForkMemory.takeMany] at htk
  split_ifs at htk
  · exact (h.takeFree htk).2
  · rw [PhysicalMemory.pageMetaSet] at htk
    split_ifs at htk
    obtain ⟨ref, hgt, rfl⟩ := map_eq_some_iff.mp htk
    rw [pageMetaGet] at hgt
    split_ifs at hgt
    · obtain rfl := some.inj hgt
      have hsm : ∀ f ∈ F, (s.pageMeta.fill (.entry (newPhys.toNat / archPageSize)) takenMeta
          n).entries f = s.pageMeta.entries f := by
        intro f hf
        refine if_neg fun hrn => hfr.not_mem h (k := f - newPhys.toNat / archPageSize) ?_ ?_
        · omega
        · rwa [Nat.add_sub_cancel' hrn.1]
      exact ⟨⟨rfl, rfl, id, fun f hf => congrArg PageMeta.state (hsm f hf)⟩, hsm⟩
    · obtain rfl := some.inj hgt
      rw [PageMetaArray.fill]
      split_ifs
      · exact ⟨.refl F _, fun _ _ => rfl⟩
      · have htn : takenMeta.state ≠ .free := by decide
        exact ⟨⟨rfl, rfl, fun _ => htn, fun _ _ => rfl⟩, fun _ _ => rfl⟩

theorem Guarded.remapFault (hva : va < 2 ^ 47)
    (hsr : comMmPmmIsShared s.pageMeta (physPage e) = some false) :
    Guarded F ⟨s.pageMeta, s.mem, s.tables.set i (archMmuMap pt (va / archPageSize * archPageSize)
      (ofNat 64 (physPage e)) (mmuFlagsHint e))⟩ := by
  have hnt : frame e ∉ F := by
    intro hme
    obtain ⟨hlt, htn⟩ := h.taken _ hme
    have hps : 0 < shown pt (frame e) :=
      Finset.card_pos.mpr ⟨_, page_mem_pagesOf hva (shows_of_userEntry he)⟩
    have hle := shown_le_shownIn hpt (frame e)
    have hcnt := h.counted _ hme
    rw [comMmPmmIsShared_eq h.array hlt (by rw [← frame, htn]; decide)] at hsr
    refine of_decide_eq_false (some.inj hsr) ?_
    change 1 < (s.pageMeta.entries (frame e)).numRef
    omega
  rw [← frame_ofNat_physPage] at hnt
  refine h.extend hpt _ (.refl F _) (.map pt _ (mmuFlagsHint_and_addrMask e)
    fun hme => absurd hme hnt) fun f hf => ?_
  rw [if_neg (by rintro rfl; exact hnt hf)]
  exact le_refl _

theorem Guarded.copyFault {a₁ a₂ : PageMetaArray} (hva : va < 2 ^ 47) (mem : ℕ → BitVec 8)
    (hfm : frame newPhys ∉ F) (htk : ForkMemory.takeFree s.pageMeta newPhys.toNat = some a₁)
    (hfe : comMmPmmFree a₁ (physPage e) = some a₂) :
    Guarded F ⟨a₂, mem, s.tables.set i (archMmuMap pt (va / archPageSize * archPageSize) newPhys
      (mmuFlagsHint e))⟩ := by
  have hfl := mmuFlagsHint_and_addrMask e
  have hx := Extends.map pt (va / archPageSize * archPageSize) hfl
    fun hme => absurd hme hfm
  obtain ⟨-, hkp₁, hsm₁⟩ := h.takeFree htk
  obtain ⟨hkp₂, hnm₂⟩ := free_spec (F := F) hfe fun f hf => by
    rw [hkp₁.reservedStart]
    exact (h.taken f hf).1
  refine h.set_table hpt mem (hkp₁.trans hkp₂) (fun f hf => ?_) (h.readOnly_extend hpt hx)
  have hne : frame newPhys ≠ f := by
    rintro rfl
    exact hfm hf
  have hnm := hnm₂ f hf
  rw [hsm₁ f hf] at hnm
  replace hnm := hnm (Nat.zero_lt_of_lt (h.counted f hf))
  by_cases heq : physPage e / archPageSize = f
  · have hlt : va / archPageSize * archPageSize < 2 ^ 47 :=
      (Nat.div_mul_le_self va archPageSize).trans_lt hva
    have hold : Shows f (leaf pt (va / archPageSize * archPageSize)) := by
      rw [Nat.mul_comm, leaf_page, ← heq]
      exact shows_of_userEntry he
    have hls := shown_map_lt hfl hlt hold hne
    rw [if_pos heq] at hnm
    omega
  · have hls := hx.shown f hf
    rw [if_neg hne] at hls
    rw [if_neg heq] at hnm
    omega

theorem Guarded.handleFault (hva : va < 2 ^ 47)
    (hc : x8664MmuFaultIsr pt (ofNat 64 va) = some c)
    (hfr : Allocates s c → Fresh s.pageMeta newPhys c.numPages)
    (hs' : comMmVmmHandleFault s i pt c newPhys = some s') :
    Guarded F s' ∧ SameOn F s.mem s'.mem := by
  have hgt := getPage_of_userEntry he
  have hcl := faultIsr_flags he hva hc
  by_cases hn : has archMmuExtraFlagsNocopy e
  · have hat : comMmVmmFaultAttrMap &&& c.attr ≠ 0 := by
      rw [hcl.2, vmmAttr, if_pos hn]
      split_ifs <;> decide
    replace hfr := hfr (.inl hat)
    rw [comMmVmmHandleFault, if_pos hat] at hs'
    obtain ⟨a, htk, hs'⟩ := bind_eq_some_iff.mp hs'
    cases hs'
    obtain ⟨hkp, hsm⟩ := h.takeMany hfr htk
    have hx := Extends.mapPages (F := F) (n := c.numPages) (P := newPhys) pt
      (c.virt.toNat / archPageSize * archPageSize) (hcl.1 ▸ mmuFlagsHint_and_addrMask e)
      fun k hk => by
        rw [hfr.frame hk]
        exact hfr.not_mem h hk
    refine ⟨h.extend hpt _ hkp hx fun f hf => ?_, fun _ _ _ _ => rfl⟩
    rw [hsm f hf]
    exact le_refl _
  · by_cases hp : has archMmuExtraFlagsPrivate e
    · rw [x8664MmuFaultIsr_cow hva hgt hp hn] at hc
      cases hc
      rw [handleFault_cow hva] at hs'
      obtain ⟨shared, hsr, hs'⟩ := bind_eq_some_iff.mp hs'
      cases shared with
      | false =>
        obtain rfl := some.inj hs'
        exact ⟨h.remapFault hpt he hva hsr, fun _ _ _ _ => rfl⟩
      | true =>
        obtain ⟨a₁, htk, hs'⟩ := bind_eq_some_iff.mp hs'
        obtain ⟨a₂, hfe, hs'⟩ := bind_eq_some_iff.mp hs'
        obtain rfl := some.inj hs'
        have hph : (e &&& addrMask).toNat / archPageSize * archPageSize = physPage e := by
          rw [Nat.mul_comm]
          exact physPage_dvd e
        have hcw : comMmVmmFaultAttrCow &&& comMmVmmFaultAttrCow ≠ 0 := by decide
        replace hfr := hfr (.inr ⟨hcw, by rw [cowCall, hph, hsr]⟩)
        have hnt := (h.takeFree htk).1
        have hfm := hfr.frame Nat.one_pos
        rw [Nat.mul_zero, BitVec.add_zero, Nat.add_zero] at hfm
        refine ⟨h.copyFault hpt he hva _ (hfm ▸ hnt) htk hfe, fun f hf k hk => if_neg ?_⟩
        intro hin
        have hpg : newPhys.toNat / archPageSize = f := by
          have hal := hfr.aligned
          unfold archPageSize at *
          omega
        exact hnt (hpg ▸ hf)
    · have hat : c.attr = 0 := by rw [hcl.2, vmmAttr, if_neg hp, if_neg hn]
      rw [comMmVmmHandleFault, hat, if_neg (by decide), if_neg (by decide)] at hs'
      obtain rfl := some.inj hs'
      exact ⟨h, fun _ _ _ _ => rfl⟩

end Store

theorem SameOn.trans {mem mem₁ mem₂ : ℕ → BitVec 8} (h : SameOn F mem mem₁)
    (h' : SameOn F mem₁ mem₂) : SameOn F mem mem₂ :=
  fun f hf k hk => (h' f hf k hk).trans (h f hf k hk)

theorem Guarded.storeByte (h : Guarded F s) (e : Entry) (va : ℕ) (b : BitVec 8) :
    Guarded F (storeByte s e va b) := ⟨h.array, h.fake, h.taken, h.counted, h.readOnly⟩

theorem Guarded.userStore {b : BitVec 8} (h : Guarded F s) (hva : va < 2 ^ 47)
    (hfr : ∀ pt e c, s.tables[i]? = some pt → userEntry pt va = some e → ¬ has archMmuFlagsWrite e →
      x8664MmuFaultIsr pt (ofNat 64 va) = some c → Allocates s c → Fresh s.pageMeta newPhys
      c.numPages)
    (hs' : userStore s i va b newPhys = some s') : Guarded F s' ∧ SameOn F s.mem s'.mem := by
  obtain ⟨pt, hpt, hs'⟩ := bind_eq_some_iff.mp hs'
  obtain ⟨e, he, hs'⟩ := bind_eq_some_iff.mp hs'
  split_ifs at hs' with hw
  · cases hs'
    exact ⟨h.storeByte e va b, sameOn_storeByte h hpt he hva hw b⟩
  · obtain ⟨c, hc, hs'⟩ := bind_eq_some_iff.mp hs'
    obtain ⟨s₁, hs₁, hs'⟩ := bind_eq_some_iff.mp hs'
    obtain ⟨pt₁, hpt₁, hs'⟩ := bind_eq_some_iff.mp hs'
    obtain ⟨e₁, he₁, hs'⟩ := bind_eq_some_iff.mp hs'
    obtain ⟨h₁, hsm⟩ := h.handleFault hpt he hva hc (hfr pt e c hpt he hw hc) hs₁
    cases hs'
    split_ifs with hw₁
    · exact ⟨h₁.storeByte e₁ va b, hsm.trans (sameOn_storeByte h₁ hpt₁ he₁ hva hw₁ b)⟩
    · exact ⟨h₁, hsm⟩

end FrameGuard
