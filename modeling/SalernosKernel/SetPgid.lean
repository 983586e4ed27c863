import SalernosKernel.ProcessGroupRegistry

/-! # What `setpgid` promises

The call is about one process, but the default for the group, the early return and the check of the
session are about the caller. -/
namespace SetPgid

open ProcessTable ProcessReferences ProcessGroups

def Contract (s : State) (p want : ℕ) : Option (Except Errno Unit × State) → Prop
  | none => False
  | some (.ok _, s') => InGroup s' p want
  | some (.error _, s') => SameGroups s s'

def RightPlace (s : State) (p asked want : ℕ) : Prop :=
  match comSysProcGetGroupByPgid s asked with
  | some g => (s.group g).pgid = want
  | none => want = p ∧ comSysProcGetGroupByPgid s p = none

def Condition (s : State) (curr p asked want : ℕ) : Prop :=
  (InGroup s curr asked → InGroup s p want) ∧
    (¬ InGroup s curr asked →
      Leads s curr ∨ Registered s p ∧ (Refused s curr p ∨ RightPlace s p asked want))

variable {s : State} {curr p asked want : ℕ}

theorem rightPlace_iff :
    RightPlace s p asked want ↔ Placeable s p asked ∧ placeOf s p asked = want := by
  unfold RightPlace Placeable placeOf
  cases comSysProcGetGroupByPgid s asked with
  | some g => simp
  | none => simp [and_comm, eq_comm]

theorem inGroup_unique {m n : ℕ} (hm : InGroup s p m) (hn : InGroup s p n) : m = n := by
  obtain ⟨g, hg, -, rfl⟩ := hm
  obtain ⟨k, hk, -, rfl⟩ := hn
  rw [Option.some.inj (hg.symm.trans hk)]

theorem contract_iff {r : Option (Except Errno Unit × State)}
    (h : SetpgidEnds s curr p asked r) : Contract s p want r ↔ Condition s curr p asked want := by
  unfold Condition
  cases h with
  | already hin => exact ⟨fun hp => ⟨fun _ => hp, absurd hin⟩, fun hok => hok.1 hin⟩
  | refused hou hwhy _ hsame =>
    refine iff_of_true hsame ⟨fun hin => absurd hin hou, fun _ => ?_⟩
    exact hwhy.imp_right fun hp => ⟨hp.1, .inl hp.2⟩
  | failed hou hleads hwhy =>
    refine iff_of_false not_false fun hok => ?_
    obtain ⟨hp, hok⟩ := (hok.2 hou).resolve_left hleads
    obtain ⟨hal, hpl⟩ := hwhy.resolve_left (not_not.mpr hp)
    exact hpl (rightPlace_iff.mp (hok.resolve_left hal)).1
  | moved hou hleads hp hal hpl _ hin =>
    constructor
    · intro hin'
      have hwn := inGroup_unique hin hin'
      exact ⟨fun h => absurd h hou, fun _ => .inr ⟨hp, .inr (rightPlace_iff.mpr ⟨hpl, hwn⟩)⟩⟩
    · intro hok
      obtain ⟨-, hok⟩ := (hok.2 hou).resolve_left hleads
      obtain ⟨-, rfl⟩ := rightPlace_iff.mp (hok.resolve_left hal)
      exact hin

/-- `setpgid(pid, pgid)` by a process that runs, in any table that is reached. -/
theorem setpgid_contract (s : State) (curr pid pgid : ℕ) (h : Reached s) (hcurr : Live s curr) :
    Contract s (ownIfZero curr pid) (ownIfZero (ownIfZero curr pid) pgid)
        (comSysSyscallSetpgid s curr pid pgid) ↔
      Condition s curr (ownIfZero curr pid) (ownIfZero curr pgid)
        (ownIfZero (ownIfZero curr pid) pgid) :=
  contract_iff (h.registry.setpgid hcurr pid pgid)

theorem reached_forked : ∃ s, Reached s ∧ Live s 1 ∧ Live s 2 ∧ InGroup s 2 1 ∧
    comSysProcGetGroupByPgid s 2 = none ∧ comSysSyscallSetpgid s 2 3 2 = none ∧
    (∃ s', comSysSyscallSetpgid s 2 0 3 = some (.ok (), s') ∧ InGroup s' 2 2) ∧
    comSysSyscallSetpgid s 1 2 0 = some (.ok (), s) :=
  ⟨_, ⟨fun _ => none, _, rfl, .step .start (e := .fork 1 fun _ => none)
      ⟨⟨by decide, by decide⟩, rfl⟩ rfl⟩, ⟨⟨by decide, by decide⟩, rfl⟩,
    ⟨⟨by decide, by decide⟩, rfl⟩, ⟨0, rfl, by decide, rfl⟩, rfl, rfl,
    ⟨_, rfl, 1, rfl, by decide, rfl⟩, rfl⟩

theorem setpgid_contract_own : ∃ s, Reached s ∧ Live s 2 ∧ InGroup s 2 1 ∧
    Contract s 2 2 (comSysSyscallSetpgid s 2 0 0) := by
  obtain ⟨s, hs, -, hlv, hin, hfr, -⟩ := reached_forked
  refine ⟨s, hs, hlv, hin, (setpgid_contract s 2 0 0 hs hlv).mpr ?_⟩
  have hou : ¬ InGroup s 2 2 := fun h => absurd (inGroup_unique h hin) (by decide)
  have hpl : RightPlace s 2 2 2 := by
    simp only [RightPlace, hfr, and_self]
  exact ⟨fun h => absurd h hou, fun _ => .inr ⟨hlv.registered hs.registry, .inr hpl⟩⟩

/-- The child asks for a process that does not exist; asks for a group that does not exist and gets
another; and its parent asks for it to have a group of its own, which is granted and not done. -/
theorem setpgid_wrong_group : ∃ s, Reached s ∧ Live s 1 ∧ Live s 2 ∧
    comSysSyscallSetpgid s 2 3 2 = none ∧
    (∃ s', comSysSyscallSetpgid s 2 0 3 = some (.ok (), s') ∧ ¬ InGroup s' 2 3) ∧
    comSysSyscallSetpgid s 1 2 0 = some (.ok (), s) ∧ ¬ InGroup s 2 2 := by
  obtain ⟨s, hs, hfs, hlv, hin, -, hab, ⟨s', hcl, hin'⟩, hpr⟩ := reached_forked
  refine ⟨s, hs, hfs, hlv, hab, ⟨s', hcl, fun h => ?_⟩, hpr, fun h => ?_⟩
  · exact absurd (inGroup_unique h hin') (by decide)
  · exact absurd (inGroup_unique h hin) (by decide)

end SetPgid
