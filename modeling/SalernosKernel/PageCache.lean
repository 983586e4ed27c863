import SalernosKernel.Config
import SalernosKernel.RadixTree

/-! # The page cache

`com/fs/pagecache.c`: the pages of a file in a radix tree of four layers. An index is a file offset
over the page size, up to 52 bits long, and the tree looks at 36 of them. -/
namespace PageCache

open RadixTree

structure Cache where
  tree : Tree ℕ 3
  page : ℕ → ℕ → UInt8
  nextPage : ℕ
  allocated : ∀ i a, kradixtreeGetNolock tree i = some a → a < nextPage
  exclusive : ∀ i j a, kradixtreeGetNolock tree i = some a → kradixtreeGetNolock tree j = some a →
    splitIndex 3 i = splitIndex 3 j

theorem get_blank (i : ℕ) : kradixtreeGetNolock (RadixTable.blank none 3 : Tree ℕ 3) i = none :=
  RadixTable.getD_lookup_blank none _

def comFsPagecacheNew : Cache where
  tree := RadixTable.blank none 3
  page _ _ := 0
  nextPage := 0
  allocated i a h := by simp [get_blank] at h
  exclusive i j a h := by simp [get_blank] at h

def comFsPagecacheGet (c : Cache) (index : ℕ) : Option ℕ := kradixtreeGetNolock c.tree index

/-- A page from the allocator is put where there was none. Memory is zeroed at boot and when it is
freed, so the page reads as zero. -/
def Cache.put (c : Cache) (index : ℕ) (tree : Tree ℕ 3)
    (h : kradixtreePutNolock c.tree index c.nextPage = some tree) : Cache where
  tree := tree
  page := Function.update c.page c.nextPage fun _ => 0
  nextPage := c.nextPage + 1
  allocated i a hget := by
    rw [get_put h] at hget
    split at hget
    · cases hget
      exact Nat.lt_succ_self _
    · exact Nat.lt_succ_of_lt (c.allocated i a hget)
  exclusive i j a hi hj := by
    rw [get_put h] at hi hj
    split at hi
    · next hsi =>
      split at hj
      · next hsj => exact hsi.trans hsj.symm
      · cases hi
        exact absurd (c.allocated j _ hj) (lt_irrefl _)
    · split at hj
      · cases hj
        exact absurd (c.allocated i _ hi) (lt_irrefl _)
      · exact c.exclusive i j a hi hj

def comFsPagecacheDefault (c : Cache) (index : ℕ) : Option (ℕ × Cache) :=
  match comFsPagecacheGet c index with
  | some page => some (page, c)
  | none =>
    match h : kradixtreePutNolock c.tree index c.nextPage with
    | some tree => some (c.nextPage, c.put index tree h)
    | none => none

def Cache.store (c : Cache) (address start : ℕ) (bytes : List UInt8) : Cache :=
  { c with
    page := Function.update c.page address fun k =>
      if start ≤ k then (bytes[k - start]?).getD (c.page address k) else c.page address k }

@[simp] theorem get_store (c : Cache) (address start i : ℕ) (bytes : List UInt8) :
    comFsPagecacheGet (c.store address start bytes) i = comFsPagecacheGet c i := rfl

theorem page_store (c : Cache) (address start : ℕ) (bytes : List UInt8) :
    (c.store address start bytes).page = Function.update c.page address fun k =>
      if start ≤ k then (bytes[k - start]?).getD (c.page address k) else c.page address k := rfl

def Cache.look (c : Cache) (index : ℕ) : Option (ℕ × (ℕ → UInt8)) :=
  (comFsPagecacheGet c index).map fun address => (address, c.page address)

section Default

variable {c c' : Cache} {i j address : ℕ}

structure Defaults (c : Cache) (i address : ℕ) (c' : Cache) : Prop where
  get : ∀ j, comFsPagecacheGet c' j =
    if splitIndex 3 j = splitIndex 3 i then some address else comFsPagecacheGet c j
  kept : ∀ a < c.nextPage, c'.page a = c.page a
  found : ∀ a, comFsPagecacheGet c i = some a → a = address
  zero : comFsPagecacheGet c i = none → c'.page address = fun _ => 0

theorem default_spec (c : Cache) (i : ℕ) :
    ∃ address c', comFsPagecacheDefault c i = some (address, c') ∧ Defaults c i address c' := by
  unfold comFsPagecacheDefault
  split
  · next a hget =>
    refine ⟨a, c, rfl, fun j => ?_, fun _ _ => rfl, fun b hb => ?_, fun h => ?_⟩
    · split
      · next hsl =>
        simp only [comFsPagecacheGet, kradixtreeGetNolock, hsl] at hget ⊢
        exact hget
      · rfl
    · exact Option.some.inj (hb.symm.trans hget)
    · cases hget.symm.trans h
  · next hno =>
    split
    · next tree hpt =>
      refine ⟨_, _, rfl, fun j => get_put hpt, fun a ha => ?_, fun a ha => ?_, fun _ => ?_⟩
      · exact Function.update_of_ne ha.ne _ _
      · cases hno.symm.trans ha
      · exact Function.update_self _ _ _
    · next hpt =>
      have hsm : (kradixtreePutNolock c.tree i c.nextPage).isSome := put_isSome.mpr hno
      simp [hpt] at hsm

theorem Defaults.of_eq (h : comFsPagecacheDefault c i = some (address, c')) :
    Defaults c i address c' := by
  obtain ⟨a, d, hd, hsp⟩ := default_spec c i
  obtain ⟨rfl, rfl⟩ := Prod.mk.inj (Option.some.inj (hd.symm.trans h))
  exact hsp

theorem Defaults.look_of_ne (h : Defaults c i address c') (hne : splitIndex 3 j ≠ splitIndex 3 i) :
    c'.look j = c.look j := by
  simp only [Cache.look, h.get, if_neg hne]
  cases hget : comFsPagecacheGet c j with
  | none => rfl
  | some a => simp [h.kept a (c.allocated j a hget)]

theorem look_store_of_ne (hi : comFsPagecacheGet c i = some address)
    (hne : splitIndex 3 j ≠ splitIndex 3 i) (start : ℕ) (bytes : List UInt8) :
    (c.store address start bytes).look j = c.look j := by
  simp only [Cache.look, get_store]
  cases hget : comFsPagecacheGet c j with
  | none => rfl
  | some a =>
    have ha : a ≠ address := fun he => hne (c.exclusive j i a hget (he ▸ hi))
    simp [page_store, Function.update_of_ne ha]

end Default

def pageIndex (off : BitVec 64) : ℕ := off.toNat / archPageSize

def Unaffected (a b : ℕ) : Prop :=
  ∀ (c : Cache) (address : ℕ) (c' : Cache), comFsPagecacheDefault c a = some (address, c') →
    c'.look b = c.look b ∧
      ∀ start bytes, (c'.store address start bytes).look b = c.look b

theorem splitIndex_three_eq_iff {a b : ℕ} :
    splitIndex 3 a = splitIndex 3 b ↔ a % 2 ^ 36 = b % 2 ^ 36 := splitIndex_eq_iff

theorem unaffected_of_ne {a b : ℕ} (h : splitIndex 3 b ≠ splitIndex 3 a) : Unaffected a b := by
  intro c address c' hdf
  have hsp := Defaults.of_eq hdf
  have hlk := hsp.look_of_ne h
  have hget : comFsPagecacheGet c' a = some address := by simp [hsp.get]
  exact ⟨hlk, fun start bytes => (look_store_of_ne hget h start bytes).trans hlk⟩

theorem not_unaffected_of_eq {a b : ℕ} (h : splitIndex 3 b = splitIndex 3 a) :
    ¬ Unaffected a b := by
  intro hun
  obtain ⟨address, c', hdf, hsp⟩ := default_spec comFsPagecacheNew a
  have hlk := (hun _ address c' hdf).1
  have hno : comFsPagecacheGet comFsPagecacheNew b = none := get_blank b
  simp [Cache.look, hsp.get, h, hno] at hlk

/-- Two pages of a file have storage of their own exactly when their indices differ in the bits
that the four layers take. -/
theorem pages_unaffected_iff (x y : BitVec 64) :
    Unaffected (pageIndex x) (pageIndex y) ↔ pageIndex x % 2 ^ 36 ≠ pageIndex y % 2 ^ 36 := by
  constructor
  · intro hun heq
    exact not_unaffected_of_eq (splitIndex_three_eq_iff.mpr heq.symm) hun
  · intro hne
    exact unaffected_of_ne fun heq => hne (splitIndex_three_eq_iff.mp heq).symm

/-- The offsets 0 and 2 ^ 48 have different indices and one page. -/
theorem far_page_affected : pageIndex 0 ≠ pageIndex 0x1000000000000 ∧
    ¬ Unaffected (pageIndex 0) (pageIndex 0x1000000000000) := by
  refine ⟨by decide, not_unaffected_of_eq ?_⟩
  exact splitIndex_three_eq_iff.mpr (by decide)

end PageCache
