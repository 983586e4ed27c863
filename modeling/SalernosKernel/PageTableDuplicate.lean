import Mathlib.Order.CompletePartialOrder
import SalernosKernel.PageTable

/-! # Duplicating a page table

`arch_mmu_duplicate_table` copies the user half of a table for a fork. -/
namespace PageTableDuplicate

open PageTable RadixTable
open RadixTable (walk)
open BitVec (twoPow getLsbD_and)

def physPage (e : Entry) : ℕ := (e &&& addrMask).toNat
def frame (e : Entry) : ℕ := physPage e / archPageSize

def duplicateLeaf (entry : Entry) : Entry :=
  let entryShared := has archMmuExtraFlagsShared entry
  let entryWritable := has archMmuFlagsWrite entry
  if entryShared then entry
  else (entry &&& ~~~archMmuFlagsWrite) ||| if entryWritable then 1 <<< 9 else 0

structure Duplicate (n : ℕ) where
  new : Level n
  old : Level n
  held : List ℕ

/-- The levels above `0`. New tables start out as zeroes and get an `entry` for each one of the old
table, which the slots `q` lead to. -/
def duplicateRecursive (entry : List (Fin 512) → Entry → Entry) :
    ∀ {n : ℕ}, List (Fin 512) → Level n → Duplicate n
  | _, _, .leaf val =>
    let nvirt := fun i => if present (val i) then duplicateLeaf (val i) else 0
    { new := .leaf nvirt
      old := .leaf fun i => if present (val i) then nvirt i else val i
      held := (List.finRange 512).flatMap fun i =>
        if present (val i) then [physPage (val i)] else [] }
  | _, q, .node slot child =>
    { new := .node (fun i => ((slot i).filter present).map (entry (i :: q)))
        fun i => (duplicateRecursive entry (i :: q) (child i)).new
      old := .node slot fun i =>
        if (slot i).any present then
          (duplicateRecursive entry (i :: q) (child i)).old
        else child i
      held := (List.finRange 512).flatMap fun i =>
        if (slot i).any present then
          (duplicateRecursive entry (i :: q) (child i)).held
        else [] }

/-- The upper half of the new table is the kernel's. -/
def duplicateTable (entry : List (Fin 512) → Entry → Entry) (rootTable pt : Pagetable) :
    Duplicate 3 :=
  match rootTable, pt with
  | .node rootSlot rootChild, .node slot child =>
    { new := .node
        (fun i => if i.val < 256 then
          ((slot i).filter present).map (entry [i]) else rootSlot i)
        fun i => if i.val < 256 then (duplicateRecursive entry [i] (child i)).new else rootChild i
      old := .node slot fun i =>
        if i.val < 256 ∧ (slot i).any present then
          (duplicateRecursive entry [i] (child i)).old
        else child i
      held := (List.finRange 512).flatMap fun i =>
        if i.val < 256 ∧ (slot i).any present then
          (duplicateRecursive entry [i] (child i)).held
        else [] }

/-- Without the addresses of the tables. -/
abbrev archMmuDuplicateTable : Pagetable → Pagetable → Duplicate 3 := duplicateTable fun _ e => e

variable {e e' : Entry} {n : ℕ} {entry : List (Fin 512) → Entry → Entry}

theorem has_twoPow (i : ℕ) (e : Entry) (h : i < 64) : has (twoPow 64 i) e = e.getLsbD i := by
  rw [has, BitVec.twoPow_and]
  cases hb : e.getLsbD i with
  | false => simp
  | true =>
    have hne : twoPow 64 i ≠ 0#64 := by
      intro heq
      have := congrArg (BitVec.getLsbD · i) heq
      simp [h] at this
    simp [hne]

theorem present_eq : present = has (twoPow 64 0) := rfl
theorem write_eq : archMmuFlagsWrite = twoPow 64 1 := by decide
theorem private_eq : archMmuExtraFlagsPrivate = twoPow 64 9 := by decide
theorem shared_eq : archMmuExtraFlagsShared = twoPow 64 10 := by decide
theorem nocopy_eq : archMmuExtraFlagsNocopy = twoPow 64 11 := by decide

theorem getLsbD_clear (e : Entry) (i j : ℕ) (hj : j < 64) :
    (e &&& ~~~twoPow 64 i).getLsbD j = (e.getLsbD j && j != i) := by
  have hpw : (twoPow 64 i).getLsbD j = decide (i = j) := by
    by_cases h : i = j
    · simp [h, hj]
    · simp [h]
  simp [hj, bne, Bool.beq_eq_decide_eq, eq_comm]

theorem getLsbD_set (e : Entry) (i j : ℕ) (hj : j < 64) :
    (e ||| twoPow 64 i).getLsbD j = (e.getLsbD j || j == i) := by
  by_cases h : i = j
  · simp [h, hj]
  · simp [h, Ne.symm h]

theorem physPage_dvd (e : Entry) : archPageSize * frame e = physPage e := by
  apply Nat.mul_div_cancel'
  apply Nat.dvd_of_mod_eq_zero
  rw [physPage, BitVec.toNat_and, show archPageSize = 2 ^ 12 from rfl, Nat.and_mod_two_pow]
  rw [show addrMask.toNat % 2 ^ 12 = 0 from by decide, Nat.and_zero]

theorem getLsbD_duplicateLeaf {i : ℕ} (hi : i < 64) : (duplicateLeaf e).getLsbD i =
    if has archMmuExtraFlagsShared e then e.getLsbD i
    else (e.getLsbD i && i != 1) || (has archMmuFlagsWrite e && i == 9) := by
  unfold duplicateLeaf
  dsimp only
  split
  · rfl
  · cases has archMmuFlagsWrite e with
    | false => simp [write_eq, getLsbD_clear _ _ _ hi]
    | true =>
      rw [if_pos rfl, show (1 <<< 9 : Entry) = twoPow 64 9 from by decide,
        getLsbD_set _ _ _ hi, write_eq, getLsbD_clear _ _ _ hi, Bool.true_and]

theorem duplicateLeaf_present :
    present (duplicateLeaf e) = present e := by
  rw [present_eq, has_twoPow 0 _ (by decide), has_twoPow 0 _ (by decide),
    getLsbD_duplicateLeaf (by decide)]
  split <;> simp

theorem duplicateLeaf_shared :
    has archMmuExtraFlagsShared (duplicateLeaf e) = has archMmuExtraFlagsShared e := by
  rw [shared_eq, has_twoPow 10 _ (by decide), has_twoPow 10 _ (by decide),
    getLsbD_duplicateLeaf (by decide)]
  split <;> simp

theorem duplicateLeaf_write : has archMmuFlagsWrite (duplicateLeaf e) =
    (has archMmuFlagsWrite e && has archMmuExtraFlagsShared e) := by
  rw [write_eq, has_twoPow 1 _ (by decide), has_twoPow 1 _ (by decide),
    getLsbD_duplicateLeaf (by decide)]
  split
  · simp [*]
  · simp [*]

theorem frame_congr (h : ∀ i, 12 ≤ i → i < 63 → e'.getLsbD i = e.getLsbD i) :
    frame e' = frame e := by
  have hms : e' &&& addrMask = e &&& addrMask := by
    apply BitVec.eq_of_getLsbD_eq
    intro i hi
    rw [getLsbD_and, getLsbD_and]
    by_cases hbt : addrMask.getLsbD i
    · have hrn : 12 ≤ i ∧ i < 63 := by
        revert i
        decide
      rw [h i hrn.1 hrn.2]
    · simp [hbt]
  rw [frame, frame, physPage, physPage, hms]

theorem duplicateLeaf_frame : frame (duplicateLeaf e) = frame e := by
  apply frame_congr
  intro i hlo hhi
  rw [getLsbD_duplicateLeaf (by omega)]
  split
  · rfl
  · have h₁ : i ≠ 1 := by omega
    have h₉ : i ≠ 9 := by omega
    simp [bne_iff_ne.mpr h₁, beq_eq_false_iff_ne.mpr h₉]

def presentLeaf (t : Level n) (p : RadixTable.Path 512 n) : Option Entry :=
  (walk present t p).filter present

def userLeaf (pt : Pagetable) : RadixTable.Path 512 3 → Option Entry
  | .step i p => if i.val < 256 then presentLeaf pt (.step i p) else none

theorem presentLeaf_leaf (val : Fin 512 → Entry) (i : Fin 512) : presentLeaf (.leaf val) (.last i) =
      if present (val i) then some (val i) else none := by
  simp [presentLeaf, walk, Option.filter]

theorem presentLeaf_node (slot : Fin 512 → Option Entry) (child : Fin 512 → Level n) (i : Fin 512)
    (p : RadixTable.Path 512 n) :
    presentLeaf (.node slot child) (.step i p) =
      if (slot i).any present then presentLeaf (child i) p else none := by
  cases hs : slot i with
  | none => simp [presentLeaf, walk, hs]
  | some l =>
    by_cases hl : present l
    · simp [presentLeaf, walk, hs, hl]
    · simp [presentLeaf, walk, hs, hl]

def KeepsPresent (entry : List (Fin 512) → Entry → Entry) : Prop :=
  ∀ q e, present (entry q e) = present e

theorem any_map_entry (h : KeepsPresent entry) (q : List (Fin 512)) (o : Option Entry) :
    ((o.filter present).map (entry q)).any present =
      o.any present := by
  cases o with
  | none => rfl
  | some l =>
    by_cases hl : present l
    · simp [Option.filter, hl, h q l]
    · simp [Option.filter, hl]

theorem presentLeaf_duplicate (h : KeepsPresent entry) (q : List (Fin 512)) (t : Level n)
    (p : RadixTable.Path 512 n) :
    presentLeaf (duplicateRecursive entry q t).new p = (presentLeaf t p).map duplicateLeaf ∧
      presentLeaf (duplicateRecursive entry q t).old p = (presentLeaf t p).map duplicateLeaf := by
  induction t generalizing q with
  | leaf val =>
    obtain ⟨i⟩ := p
    simp only [duplicateRecursive, presentLeaf_leaf]
    by_cases hp : present (val i)
    · simp [hp, duplicateLeaf_present]
    · simp [hp, show present 0#64 = false from by decide]
  | node slot child ih =>
    cases p with
    | step i p =>
      obtain ⟨hnw, hold⟩ := ih i (i :: q) p
      simp only [duplicateRecursive, presentLeaf_node, any_map_entry h]
      by_cases hp : (slot i).any present
      · simp only [if_pos hp, hnw, hold, and_self]
      · simp only [if_neg hp, Option.map_none, and_self]

def leafUses (t : Level n) (f : ℕ) : ℕ :=
  ∑ p : RadixTable.Path 512 n, if (presentLeaf t p).map frame = some f then 1 else 0

theorem count_flatMap_finRange {m : ℕ} (g : Fin m → List ℕ) (f : ℕ) :
    (((List.finRange m).flatMap g).map (· / archPageSize)).count f =
      ∑ i, ((g i).map (· / archPageSize)).count f := by
  rw [List.map_flatMap, List.count_flatMap, Fin.sum_univ_def]
  rfl

theorem count_held (q : List (Fin 512)) (t : Level n) (f : ℕ) :
    ((duplicateRecursive entry q t).held.map (· / archPageSize)).count f = leafUses t f := by
  induction t generalizing q with
  | leaf val =>
    rw [duplicateRecursive, count_flatMap_finRange, leafUses, sum_path_zero]
    apply Finset.sum_congr rfl
    intro i _
    rw [presentLeaf_leaf]
    split
    · simp [List.count_singleton, frame]
    · simp
  | node slot child ih =>
    rw [duplicateRecursive, count_flatMap_finRange, leafUses, sum_path_succ]
    apply Finset.sum_congr rfl
    intro i _
    simp only [presentLeaf_node]
    split
    · exact ih i _
    · simp

theorem userLeaf_duplicate (h : KeepsPresent entry) (rootTable pt : Pagetable)
    (p : RadixTable.Path 512 3) :
    userLeaf (duplicateTable entry rootTable pt).new p = (userLeaf pt p).map duplicateLeaf ∧
      userLeaf (duplicateTable entry rootTable pt).old p = (userLeaf pt p).map duplicateLeaf := by
  cases rootTable with
  | node rootSlot rootChild =>
  cases pt with
  | node slot child =>
  cases p with
  | step i p =>
    obtain ⟨hnw, hold⟩ := presentLeaf_duplicate h [i] (child i) p
    simp only [userLeaf, duplicateTable]
    by_cases hi : i.val < 256
    · simp only [if_pos hi, presentLeaf_node, any_map_entry h]
      by_cases hp : (slot i).any present
      · simp only [if_pos hp, if_pos (And.intro hi hp), hnw, hold, and_self]
      · simp only [if_neg hp, Option.map_none, and_self]
    · simp only [if_neg hi, Option.map_none, and_self]

theorem count_held_user (rootTable pt : Pagetable) (f : ℕ) :
    ((duplicateTable entry rootTable pt).held.map (· / archPageSize)).count f =
      ∑ p, if (userLeaf pt p).map frame = some f then 1 else 0 := by
  cases rootTable with
  | node rootSlot rootChild =>
  cases pt with
  | node slot child =>
    rw [duplicateTable, count_flatMap_finRange, sum_path_succ]
    apply Finset.sum_congr rfl
    intro i _
    simp only [userLeaf, presentLeaf_node]
    by_cases hi : i.val < 256
    · by_cases hp : (slot i).any present
      · simp only [hi, hp, and_self, if_true]
        exact count_held [i] (child i) f
      · simp [hi, hp]
    · simp [hi]

abbrev TablePages := List (Fin 512) → {a : Entry // a &&& addrMask = a}

def tableEntry (new : {a : Entry // a &&& addrMask = a}) (entry : Entry) : Entry :=
  new.1 ||| (entry &&& ~~~addrMask)

def tableFrames : ∀ {n : ℕ}, Level n → Set ℕ
  | _, .leaf _ => ∅
  | _, .node slot child =>
    {f | ∃ i e, slot i = some e ∧ (frame e = f ∨ f ∈ tableFrames (child i))}

def userTableFrames : Pagetable → Set ℕ
  | .node slot child =>
    {f | ∃ i e, i.val < 256 ∧ slot i = some e ∧ (frame e = f ∨ f ∈ tableFrames (child i))}

def topSlot : Pagetable → Fin 512 → Option Entry × Level 2
  | .node slot child, i => (slot i, child i)

def Forked (e e' : Entry) : Prop :=
  if has archMmuExtraFlagsShared e then e' = e
  else ∀ i < 64, e'.getLsbD i =
    if i = 1 then false else if i = 9 then e.getLsbD 9 || e.getLsbD 1 else e.getLsbD i

structure ExactFork (rootTable pt : Pagetable) (d : Duplicate 3) : Prop where
  leaf : ∀ p e, userLeaf pt p = some e →
    ∃ e', userLeaf d.new p = some e' ∧ userLeaf d.old p = some e' ∧ Forked e e'
  only : ∀ p, userLeaf pt p = none → userLeaf d.new p = none ∧ userLeaf d.old p = none
  held : ∀ f, (d.held.map (· / archPageSize)).count f =
    ∑ p, if (userLeaf pt p).map frame = some f then 1 else 0
  apart : Disjoint (userTableFrames d.new) (userTableFrames d.old)
  upper : ∀ i : Fin 512, 256 ≤ i.val → topSlot d.new i = topSlot rootTable i

section

variable (new : {a : Entry // a &&& addrMask = a})

include new

theorem frame_tableEntry (entry : Entry) :
    frame (tableEntry new entry) = frame new.1 := by
  apply frame_congr
  intro i hlo hhi
  have hms : ∀ j < 63, 12 ≤ j → addrMask.getLsbD j = true := by decide
  simp [tableEntry, hms i hhi hlo]

theorem present_tableEntry (entry : Entry) :
    present (tableEntry new entry) = present entry := by
  have hz : new.1.getLsbD 0 = false := by
    rw [← new.2, getLsbD_and, show addrMask.getLsbD 0 = false from by decide, Bool.and_false]
  rw [present_eq, has_twoPow 0 _ (by decide), has_twoPow 0 _ (by decide), tableEntry,
    BitVec.getLsbD_or, hz, Bool.false_or, getLsbD_and,
    show (~~~addrMask).getLsbD 0 = true from by decide, Bool.and_true]

end

theorem mem_tableFrames_new (alloc : TablePages) (q : List (Fin 512)) (t : Level n) {f : ℕ}
    (h : f ∈ tableFrames (duplicateRecursive (fun q => tableEntry (alloc q)) q t).new) :
    ∃ q, f = frame (alloc q).1 := by
  induction t generalizing q with
  | leaf val => exact absurd h (Set.notMem_empty f)
  | node slot child ih =>
    obtain ⟨i, e, he, rfl | h⟩ := h
    · obtain ⟨e, -, rfl⟩ := Option.map_eq_some_iff.mp he
      exact ⟨_, frame_tableEntry _ e⟩
    · exact ih i _ h

theorem tableFrames_old (q : List (Fin 512)) (t : Level n) :
    tableFrames (duplicateRecursive entry q t).old = tableFrames t := by
  induction t generalizing q with
  | leaf val => rfl
  | node slot child ih =>
    rw [duplicateRecursive, tableFrames, tableFrames]
    simp only [apply_ite tableFrames, ih, ite_self]

theorem forked_duplicateLeaf (e : Entry) : Forked e (duplicateLeaf e) := by
  rw [Forked]
  split
  · rw [duplicateLeaf, if_pos ‹_›]
  · intro i hi
    rw [getLsbD_duplicateLeaf hi, if_neg ‹_›, write_eq, has_twoPow 1 _ (by decide)]
    split_ifs with h₁ h₉
    · simp [h₁]
    · simp [h₉]
    · simp [bne_iff_ne.mpr h₁, beq_eq_false_iff_ne.mpr h₉]

/-- A fork copies the lower half exactly, into tables of its own. -/
theorem fork_exact (alloc : TablePages) (rootTable pt : Pagetable)
    (hfresh : ∀ q, frame (alloc q).1 ∉ userTableFrames pt) :
    ExactFork rootTable pt (duplicateTable (fun q => tableEntry (alloc q)) rootTable pt) := by
  have hleaf := userLeaf_duplicate (fun q => present_tableEntry (alloc q)) rootTable pt
  cases rootTable with
  | node rootSlot rootChild =>
  cases pt with
  | node slot child =>
  constructor
  · intro p e he
    refine ⟨duplicateLeaf e, ?_, ?_, forked_duplicateLeaf e⟩
    · rw [(hleaf p).1, he]
      rfl
    · rw [(hleaf p).2, he]
      rfl
  · intro p hp
    rw [(hleaf p).1, (hleaf p).2, hp]
    exact ⟨rfl, rfl⟩
  · exact count_held_user _ _
  · rw [Set.disjoint_left]
    rintro f ⟨i, e, hi, he, hf⟩ ⟨j, e', hj, he', hf'⟩
    simp only [hi, if_true] at he hf
    simp only [hj, true_and, apply_ite tableFrames, tableFrames_old, ite_self] at hf'
    obtain ⟨q, rfl⟩ : ∃ q, f = frame (alloc q).1 := by
      rcases hf with rfl | hf
      · obtain ⟨e, -, rfl⟩ := Option.map_eq_some_iff.mp he
        exact ⟨_, frame_tableEntry _ e⟩
      · exact mem_tableFrames_new _ _ _ hf
    exact hfresh q ⟨j, e', hj, he', hf'⟩
  · intro i hi
    simp only [duplicateTable, topSlot, if_neg (not_lt.mpr hi)]

def sampleLevel (child : Level n) : Level (n + 1) :=
  .node (fun i => if i.val = 0 then some dataFlags else none) fun _ => child

/-- There is one table in every level. -/
def samplePages : TablePages
  | [_] => ⟨0x1000, by decide⟩
  | [_, _] => ⟨0x2000, by decide⟩
  | _ => ⟨0x3000, by decide⟩

theorem fork_exact_full : ∃ pt : Pagetable, userLeaf pt (pathOf 3 0) = some (0x9000 ||| dataFlags) ∧
      ExactFork (blank 0 3) pt (duplicateTable (fun q => tableEntry (samplePages q)) (blank 0 3)
        pt) := by
  refine ⟨sampleLevel (sampleLevel (sampleLevel (.leaf fun _ => 0x9000 ||| dataFlags))),
    by decide +kernel, fork_exact _ _ _ fun q => ?_⟩
  have hpage : frame (samplePages q).1 ≠ 0 := by
    unfold samplePages
    split <;> decide
  generalize frame (samplePages q).1 = f at hpage
  have hlevel : ∀ {m : ℕ} (t : Level m), f ∉ tableFrames t → f ∉ tableFrames (sampleLevel t) := by
    rintro m t ht ⟨i, e, he, hf | hf⟩
    · obtain ⟨-, hentry⟩ := Option.ite_none_right_eq_some.mp he
      rw [← Option.some.inj hentry] at hf
      exact hpage hf.symm
    · exact ht hf
  have hleaf : f ∉ tableFrames (.leaf fun _ => 0x9000 ||| dataFlags : Level 0) := Set.notMem_empty f
  rintro ⟨i, e, -, he, hf⟩
  exact hlevel _ (hlevel _ (hlevel _ hleaf)) (Exists.intro i (Exists.intro e ⟨he, hf⟩))

end PageTableDuplicate
