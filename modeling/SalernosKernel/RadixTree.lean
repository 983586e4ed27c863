import Mathlib.Tactic.Positivity
import SalernosKernel.RadixTable
import SalernosKernel.Runs

/-! # The radix tree

`lib/radixtree.c`: a table of pointers with 512 slots in every layer. An index is cut to as many
bits as the layers take, so indices that agree on those share a leaf. -/
namespace RadixTree

open RadixTable Runs Function

abbrev Tree (α : Type) (n : ℕ) := Table 512 Unit (Option α) n

def slot (index : ℕ) : Fin 512 := ⟨index % 512, Nat.mod_lt index (by decide)⟩

def splitIndex : ∀ n : ℕ, ℕ → RadixTable.Path 512 n
  | 0, index => .last (slot index)
  | n + 1, index => .step (slot (index >>> (9 * (n + 1)))) (splitIndex n index)

section Tree

variable {α : Type} {n i j : ℕ} {t t' : Tree α n} {v : α}

def kradixtreeGetNolock (t : Tree α n) (index : ℕ) : Option α :=
  (lookup t (splitIndex n index)).getD none

def kradixtreePutNolock (t : Tree α n) (index : ℕ) (data : α) : Option (Tree α n) :=
  if kradixtreeGetNolock t index = none then some (insert () none t (splitIndex n index) (some data))
  else none

/-- No result is a failed assertion; where a branch is missing the tree stays as it is. -/
def kradixtreeRemoveNolock (t : Tree α n) (index : ℕ) : Option (Tree α n) :=
  match lookup t (splitIndex n index) with
  | none => some t
  | some none => none
  | some (some _) => write t (splitIndex n index) none

theorem splitIndex_eq_iff :
    splitIndex n i = splitIndex n j ↔ i % 512 ^ (n + 1) = j % 512 ^ (n + 1) := by
  induction n with
  | zero => simp [splitIndex, slot]
  | succ n ih =>
    have hpw : 2 ^ (9 * (n + 1)) = 512 ^ (n + 1) := Nat.pow_mul 2 9 (n + 1)
    simp only [splitIndex, slot, RadixTable.Path.step.injEq, ih, Fin.mk.injEq,
      Nat.shiftRight_eq_div_pow, hpw]
    rw [Nat.pow_succ 512 (n + 1), Nat.mod_mul, Nat.mod_mul]
    constructor
    · rintro ⟨hhg, hlw⟩
      rw [hhg, hlw]
    · intro h
      have hlw : i % 512 ^ (n + 1) = j % 512 ^ (n + 1) := by
        have hmd := congrArg (· % 512 ^ (n + 1)) h
        simpa only [Nat.add_mul_mod_self_left, Nat.mod_mod] using hmd
      rw [hlw] at h
      exact ⟨Nat.eq_of_mul_eq_mul_left (by positivity) (Nat.add_left_cancel h), hlw⟩

theorem splitIndex_eq (hi : i < 512 ^ (n + 1)) (hj : j < 512 ^ (n + 1)) :
    splitIndex n i = splitIndex n j ↔ i = j := by
  rw [splitIndex_eq_iff, Nat.mod_eq_of_lt hi, Nat.mod_eq_of_lt hj]

theorem get_put (h : kradixtreePutNolock t i v = some t') : kradixtreeGetNolock t' j =
      if splitIndex n j = splitIndex n i then some v else kradixtreeGetNolock t j := by
  unfold kradixtreePutNolock at h
  split at h
  · cases h
    exact getD_lookup_insert () none t (splitIndex n i) (splitIndex n j) (some v)
  · cases h

theorem put_isSome : (kradixtreePutNolock t i v).isSome ↔ kradixtreeGetNolock t i = none := by
  unfold kradixtreePutNolock
  split <;> simp_all

theorem get_remove (h : kradixtreeRemoveNolock t i = some t') : kradixtreeGetNolock t' j =
      if splitIndex n j = splitIndex n i then none else kradixtreeGetNolock t j := by
  unfold kradixtreeRemoveNolock at h
  split at h
  · next hno =>
    cases h
    by_cases hj : splitIndex n j = splitIndex n i
    · simp [kradixtreeGetNolock, hj, hno]
    · simp [hj]
  · cases h
  · by_cases hj : splitIndex n j = splitIndex n i
    · simp [kradixtreeGetNolock, lookup_write h, hj]
    · simp [kradixtreeGetNolock, lookup_write h, hj]

theorem remove_isSome (h : kradixtreeGetNolock t i = some v) :
    (kradixtreeRemoveNolock t i).isSome := by
  have hlu : lookup t (splitIndex n i) = some (some v) := by
    simpa [kradixtreeGetNolock, Option.getD_eq_iff] using h
  simp only [kradixtreeRemoveNolock, hlu]
  exact write_isSome.mpr (by simp [hlu])

inductive Op (α : Type) (size : ℕ) where
  | put (index : Fin size) (data : α)
  | remove (index : Fin size)

def run (t : Tree α n) : Op α (512 ^ (n + 1)) → Option (Tree α n)
  | .put index data => kradixtreePutNolock t index data
  | .remove index => kradixtreeRemoveNolock t index

/-- An entry is put where there is none and removed where there is one. -/
def Op.apply {size : ℕ} (m : Fin size → Option α) : Op α size → Option (Fin size → Option α)
  | .put index data => if m index = none then some (update m index (some data)) else none
  | .remove index => if m index = none then none else some (update m index none)

def Stores (t : Tree α n) (m : Fin (512 ^ (n + 1)) → Option α) : Prop :=
  ∀ k : Fin (512 ^ (n + 1)), kradixtreeGetNolock t k = m k

theorem Stores.run {m m' : Fin (512 ^ (n + 1)) → Option α} {op : Op α (512 ^ (n + 1))}
    (h : Stores t m) (hop : op.apply m = some m') : ∃ t', run t op = some t' ∧ Stores t' m' := by
  cases op with
  | put index data =>
    obtain ⟨hno, hm'⟩ := Option.ite_none_right_eq_some.mp hop
    cases hm'
    obtain ⟨t', ht'⟩ := Option.isSome_iff_exists.mp (put_isSome.mpr ((h index).trans hno))
    refine ⟨t', ht', fun k => ?_⟩
    rw [get_put ht', update_apply, h]
    exact if_congr ((splitIndex_eq k.2 index.2).trans Fin.val_inj) rfl rfl
  | remove index =>
    obtain ⟨hsm, hm'⟩ := Option.ite_none_left_eq_some.mp hop
    cases hm'
    obtain ⟨v, hv⟩ := Option.ne_none_iff_exists'.mp hsm
    obtain ⟨t', ht'⟩ := Option.isSome_iff_exists.mp (remove_isSome ((h index).trans hv))
    refine ⟨t', ht', fun k => ?_⟩
    rw [get_remove ht', update_apply, h]
    exact if_congr ((splitIndex_eq k.2 index.2).trans Fin.val_inj) rfl rfl

/-- After every list of permitted operations a lookup finds what the map holds. -/
theorem tree_is_map {m : Fin (512 ^ (n + 1)) → Option α} (ops : List (Op α (512 ^ (n + 1))))
    (hops : ops.foldlM Op.apply (fun _ => none) = some m) :
    ∃ t, ops.foldlM run (blank none n) = some t ∧ Stores t m := by
  have hblank : Stores (blank none n : Tree α n) fun _ => none :=
    fun k => getD_lookup_blank none _
  exact foldlM_simulates (f := run) (g := Op.apply) Stores (fun _ _ _ _ h hop => h.run hop) hblank
    hops

theorem tree_is_map_removed : ∃ t : Tree ℕ 1,
    [Op.put 513 7, .put 1 8, .remove 1].foldlM run (blank none 1) = some t ∧
      kradixtreeGetNolock t 513 = some 7 ∧ kradixtreeGetNolock t 1 = none := by
  obtain ⟨t, hrun, ht⟩ := @tree_is_map ℕ 1 _ [.put 513 7, .put 1 8, .remove 1] rfl
  have hput := ht 513
  have hremoved := ht 1
  exact ⟨t, hrun, hput, hremoved⟩

end Tree

end RadixTree
