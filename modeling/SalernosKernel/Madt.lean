import Mathlib.Data.Nat.Notation

/-! # Walking the MADT

`madt_getentry` and `madt_getcount` of `platform/x86-64/ioapic.c`. An entry starts with its type and
its length; the area has `size` bytes, numbered from `IOAPICListStart` on. -/
namespace Madt

variable (size : ℕ) (bytes : ℕ → UInt8) (type : UInt8)

/-- No result is a length read behind the area, or a walk that goes on. -/
def madtGetentry : ℕ → ℕ → ℕ → Option (Option ℕ)
  | 0, _, _ => none
  | rounds + 1, entry, n =>
    if entry < size then
      if bytes entry = type ∧ n = 0 then some (some entry)
      else if entry + 1 < size then
        madtGetentry rounds (entry + (bytes (entry + 1)).toNat)
          (if bytes entry = type then n - 1 else n)
      else none
    else some none

def madtGetcount : ℕ → ℕ → ℕ → Option ℕ
  | 0, _, _ => none
  | rounds + 1, entry, count =>
    if entry < size then
      if entry + 1 < size then
        madtGetcount rounds (entry + (bytes (entry + 1)).toNat)
          (if bytes entry = type then count + 1 else count)
      else none
    else some count

/-- Every entry has a whole header and a positive length. -/
inductive Chain : ℕ → Prop where
  | stop {entry : ℕ} : size ≤ entry → Chain entry
  | entry {entry : ℕ} : entry + 1 < size → bytes (entry + 1) ≠ 0 →
      Chain (entry + (bytes (entry + 1)).toNat) → Chain entry

/-- Both return, and there is an entry for each number below the count. -/
def Total : Prop :=
  ∃ rounds count, madtGetcount size bytes type rounds 0 0 = some count ∧
    ∀ n, ∃ rounds e, madtGetentry size bytes type rounds 0 n = some e ∧ (e.isSome ↔ n < count)

variable {size bytes}

variable {type} {entry : ℕ}

theorem chain_of_getcount {rounds count c : ℕ}
    (h : madtGetcount size bytes type rounds entry c = some count) : Chain size bytes entry := by
  induction rounds generalizing entry c with
  | zero => cases h
  | succ rounds ih =>
    rw [madtGetcount] at h
    by_cases hin : entry < size
    · rw [if_pos hin] at h
      by_cases hhd : entry + 1 < size
      · rw [if_pos hhd] at h
        by_cases hz : bytes (entry + 1) = 0
        · simpa [hz] using ih h
        · exact .entry hhd hz (ih h)
      · rw [if_neg hhd] at h
        cases h
    · exact .stop (Nat.not_lt.mp hin)

theorem Chain.walk (h : Chain size bytes entry) (type : UInt8) : ∃ k,
    (∀ c, ∃ rounds, madtGetcount size bytes type rounds entry c = some (c + k)) ∧
    ∀ n, ∃ rounds e, madtGetentry size bytes type rounds entry n = some e ∧ (e.isSome ↔ n < k) := by
  induction h with
  | stop hle =>
    have hou := Nat.not_lt.mpr hle
    refine ⟨0, fun c => ⟨1, ?_⟩, fun n => ⟨1, none, ?_, by simp⟩⟩
    · rw [madtGetcount, if_neg hou]
      rfl
    · rw [madtGetentry, if_neg hou]
  | @entry p hhd hne _ ih =>
    obtain ⟨k, hct, hen⟩ := ih
    have hin : p < size := by omega
    by_cases ht : bytes p = type
    · refine ⟨k + 1, fun c => ?_, fun n => ?_⟩
      · obtain ⟨rounds, hr⟩ := hct (c + 1)
        refine ⟨rounds + 1, ?_⟩
        rw [madtGetcount, if_pos hin, if_pos hhd, if_pos ht, hr, Nat.add_right_comm, Nat.add_assoc]
      · cases n with
        | zero => exact ⟨1, some p, by rw [madtGetentry, if_pos hin, if_pos ⟨ht, rfl⟩], by simp⟩
        | succ n =>
          obtain ⟨rounds, e, he, hk⟩ := hen n
          refine ⟨rounds + 1, e, ?_, hk.trans Nat.succ_lt_succ_iff.symm⟩
          rw [madtGetentry, if_pos hin, if_neg (by simp), if_pos hhd, if_pos ht]
          exact he
    · refine ⟨k, fun c => ?_, fun n => ?_⟩
      · obtain ⟨rounds, hr⟩ := hct c
        exact ⟨rounds + 1, by rw [madtGetcount, if_pos hin, if_pos hhd, if_neg ht, hr]⟩
      · obtain ⟨rounds, e, he, hk⟩ := hen n
        refine ⟨rounds + 1, e, ?_, hk⟩
        rw [madtGetentry, if_pos hin, if_neg fun h => ht h.1, if_pos hhd, if_neg ht, he]

/-- The walks end if and only if the entries of the table lead up to its end. -/
theorem madt_total_iff (size : ℕ) (bytes : ℕ → UInt8) (type : UInt8) :
    Total size bytes type ↔ Chain size bytes 0 := by
  constructor
  · rintro ⟨rounds, count, h, -⟩
    exact chain_of_getcount h
  · intro h
    obtain ⟨k, hct, hen⟩ := h.walk type
    obtain ⟨rounds, hr⟩ := hct 0
    exact ⟨rounds, k, by rw [hr, Nat.zero_add], hen⟩

/-- An entry of length 0 is its own successor. -/
theorem madt_stuck : ¬ ∃ rounds count, madtGetcount 2 (fun _ => 0) 2 rounds 0 0 = some count := by
  rintro ⟨rounds, count, h⟩
  induction rounds with
  | zero => cases h
  | succ rounds ih => exact ih h

end Madt
