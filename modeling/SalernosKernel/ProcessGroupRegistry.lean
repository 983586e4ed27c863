import SalernosKernel.ProcessGroupMembers

/-! # The registry of process groups

`setpgid` and `setsid` keep the registry where they return. -/
namespace ProcessGroups

open ProcessTable ProcessReferences RadixTree Option

variable {s s' t : State} {p n pgid curr g : ℕ}

def InGroup (s : State) (p n : ℕ) : Prop :=
  ∃ g, (s.proc p).procGroup = some g ∧ p ∈ (s.group g).procs ∧ (s.group g).pgid = n

theorem Registry.get_group (h : Registry s) (hg : comSysProcGetGroupByPgid s n = some g) :
    g < s.nextGroup ∧ (s.group g).pgid = n % 512 ^ 2 := by
  have hlt : n % 512 ^ 2 < 512 ^ 2 := Nat.mod_lt _ (by decide)
  have hsp : splitIndex 1 (n % 512 ^ 2) = splitIndex 1 n :=
    splitIndex_eq_iff.mpr (Nat.mod_mod _ _)
  refine h.found _ hlt g ?_
  rw [comSysProcGetGroupByPgid, kradixtreeGetNolock, hsp]
  exact hg

theorem Moved.inGroup (h : Moved p g s s') : InGroup s' p (s.group g).pgid := by
  refine ⟨g, by rw [h.procGroup, if_pos rfl], ?_, by rw [h.group]⟩
  rw [h.group]
  simp

def Placeable (s : State) (p pgid : ℕ) : Prop :=
  comSysProcGetGroupByPgid s pgid ≠ none ∨ comSysProcGetGroupByPgid s p = none

def placeOf (s : State) (p pgid : ℕ) : ℕ :=
  match comSysProcGetGroupByPgid s pgid with
  | some g => (s.group g).pgid
  | none => p

theorem moveTo_execve (h : (s.proc p).didExecve = true) :
    moveTo s p pgid = some (.error .EACCES, s) := by
  simp [moveTo, h]

theorem Registry.moveTo (h : Registry s) (hp : Created s p) (hgp : (s.proc p).procGroup ≠ none)
    (hec : (s.proc p).didExecve = false) (hplace : Placeable s p pgid) :
    ∃ s', moveTo s p pgid = some (.ok (), s') ∧ SameFacts s s' ∧ Registry s' ∧
      InGroup s' p (placeOf s p pgid) := by
  unfold ProcessGroups.moveTo placeOf
  cases hgt : comSysProcGetGroupByPgid s pgid with
  | some g =>
    have hlt := (h.get_group hgt).1
    obtain ⟨s', hjn⟩ := isSome_iff_exists.mp (h.join_isSome (p := p) hlt)
    have hmv := h.join hjn
    have hsame := sameFacts_join hjn
    exact ⟨s', by simp [hec, hjn], hsame, hmv.registry_of_sameFacts hsame h hp hlt,
      hmv.inGroup⟩
  | none =>
    have hfr : comSysProcGetGroupByPgid s p = none := hplace.resolve_left (by simp [hgt])
    obtain ⟨⟨g, t⟩, hnw⟩ : ∃ made, comSysProcNewGroup s p none = some made :=
      isSome_iff_exists.mp (newGroup_isSome.mpr hfr)
    have hmd := h.newGroup hp (.inr hgp) hnw
    have ht := hmd.registry h hp hfr
    have hlt : g < t.nextGroup := by rw [hmd.nextGroup, hmd.eq]; exact Nat.lt_succ_self _
    obtain ⟨s', hjn⟩ := isSome_iff_exists.mp (ht.join_isSome (p := p) hlt)
    have hmv := ht.join hjn
    have hsame := sameFacts_join hjn
    have hp' : Created t p := (created_iff hmd.same.nextPid).mpr hp
    exact ⟨s', by simp [hec, hnw, hjn], hmd.same.trans hsame,
      hmv.registry_of_sameFacts hsame ht hp' hlt, hmd.pgid ▸ hmv.inGroup⟩

theorem moveTo_none (hec : (s.proc p).didExecve = false) (hplace : ¬ Placeable s p pgid) :
    moveTo s p pgid = none := by
  obtain ⟨hgt, hfr⟩ := not_or.mp hplace
  have hnw : comSysProcNewGroup s p none = none :=
    not_isSome_iff_eq_none.mp fun hsm => hfr (newGroup_isSome.mp hsm)
  simp [moveTo, hec, not_not.mp hgt, hnw]

theorem SameGroups.inGroup (h : SameGroups s s') : InGroup s' p n ↔ InGroup s p n := by
  simp only [InGroup, h.procGroup, h.group]

theorem SameGroups.placeable (h : SameGroups s s') : Placeable s' p pgid ↔ Placeable s p pgid := by
  simp only [Placeable, comSysProcGetGroupByPgid, h.procGroupMap]

theorem SameGroups.placeOf (h : SameGroups s s') : placeOf s' p pgid = placeOf s p pgid := by
  simp only [ProcessGroups.placeOf, comSysProcGetGroupByPgid, h.procGroupMap, h.group]

def Leads (s : State) (curr : ℕ) : Prop :=
  ∃ g, (s.proc curr).procGroup = some g ∧ (s.group g).session = some curr

def Registered (s : State) (p : ℕ) : Prop := Created s p ∧ (facts s p).numRef ≠ 0

def Refused (s : State) (curr p : ℕ) : Prop :=
  (p ≠ curr ∧ (s.proc p).parentPid ≠ curr) ∨ (s.proc p).didExecve = true

inductive SetpgidEnds (s : State) (curr p asked : ℕ) : Option (Except Errno Unit × State) → Prop where
  | already (hin : InGroup s curr asked) : SetpgidEnds s curr p asked (some (.ok (), s))
  | refused {e : Errno} {s' : State} (hout : ¬ InGroup s curr asked)
      (hwhy : Leads s curr ∨ Registered s p ∧ Refused s curr p)
      (hs' : Registry s') (hsame : SameGroups s s') :
      SetpgidEnds s curr p asked (some (.error e, s'))
  | failed (hout : ¬ InGroup s curr asked) (hleads : ¬ Leads s curr)
      (hwhy : ¬ Registered s p ∨ ¬ Refused s curr p ∧ ¬ Placeable s p asked) :
      SetpgidEnds s curr p asked none
  | moved {s' : State} (hout : ¬ InGroup s curr asked) (hleads : ¬ Leads s curr)
      (hregistered : Registered s p) (hallowed : ¬ Refused s curr p)
      (hplace : Placeable s p asked) (hs' : Registry s')
      (hin : InGroup s' p (placeOf s p asked)) :
      SetpgidEnds s curr p asked (some (.ok (), s'))

theorem setpgidEnds_moveTo {asked : ℕ} {k : State → Option State} (hout : ¬ InGroup s curr asked)
    (hleads : ¬ Leads s curr) (hregistered : Registered s p)
    (hch : ¬ (p ≠ curr ∧ (s.proc p).parentPid ≠ curr)) (ht : Registry t)
    (hgr : SameGroups s t) (hp : Registered t p)
    (hec : (t.proc p).didExecve = (s.proc p).didExecve)
    (hk : ∀ v, Registry v → SameFacts t v → ∃ w, k v = some w ∧ Registry w ∧ SameGroups v w) :
    SetpgidEnds s curr p asked
      ((moveTo t p asked).bind fun r => (k r.2).map fun w => (r.1, w)) := by
  by_cases hdd : (s.proc p).didExecve = true
  · obtain ⟨w, hw, hrg, hsame⟩ := hk t ht (SameFacts.refl t)
    rw [moveTo_execve (hec.trans hdd), bind_some, hw, map_some]
    exact .refused hout (.inr ⟨hregistered, .inr hdd⟩) hrg (hgr.trans hsame)
  · have hnt : (t.proc p).didExecve = false := by simpa [hec] using hdd
    have hallowed : ¬ Refused s curr p := not_or.mpr ⟨hch, hdd⟩
    by_cases hplace : Placeable s p asked
    · obtain ⟨v, hv, hsame, hrg, hin⟩ := ht.moveTo hp.1 (ht.grouped p hp.1 hp.2) hnt
        (hgr.placeable.mpr hplace)
      obtain ⟨w, hw, hrg', hsame'⟩ := hk v hrg hsame
      rw [hv, bind_some, hw, map_some]
      exact .moved hout hleads hregistered hallowed hplace hrg'
        (hsame'.inGroup.mpr (hgr.placeOf ▸ hin))
    · rw [moveTo_none hnt (hgr.placeable.not.mpr hplace), bind_none]
      exact .failed hout hleads (.inr ⟨hallowed, hplace⟩)

theorem Registry.setpgidOf {asked : ℕ} (h : Registry s) (hout : ¬ InGroup s curr asked)
    (hleads : ¬ Leads s curr) (hp : Registered s p) :
    SetpgidEnds s curr p asked (setpgidOf (s.hold p) curr p asked) := by
  have hhd : Registry (s.hold p) := h.hold hp.2
  have hgr : SameGroups s (s.hold p) := sameGroups_modify fun _ => rfl
  have hfc : facts (s.hold p) p = (facts s p).hold := by
    rw [(changed_hold s p).facts, if_pos rfl]
  have hp' : Registered (s.hold p) p := ⟨hp.1, by simp [hfc, Facts.hold]⟩
  have hpr : ((s.hold p).proc p).parentPid = (s.proc p).parentPid := by simp [State.hold]
  have hec : ((s.hold p).proc p).didExecve = (s.proc p).didExecve := by simp [State.hold]
  unfold ProcessGroups.setpgidOf
  by_cases hsl : p = curr
  · have hmo := setpgidEnds_moveTo (k := some) hout hleads hp (fun hne => hne.1 hsl) hhd
      hgr hp' hec fun v hv _ => ⟨v, rfl, hv, SameGroups.refl v⟩
    simpa [hsl] using hmo
  · simp only [hsl, hpr, ne_eq, not_false_iff, true_and, if_false]
    split
    · next hot =>
      rw [bind_some, release_hold hp.2, map_some]
      exact .refused hout (.inr ⟨hp, .inl ⟨hsl, hot⟩⟩) h (SameGroups.refl s)
    · next hch =>
      refine setpgidEnds_moveTo (k := fun v => v.release p) hout hleads hp
        (fun hne => hch hne.2) hhd hgr hp' hec fun v hv hsame => ?_
      -- The reference dropped is not the last.
      have htw : 2 ≤ (facts v p).numRef := by
        have := hp.2
        rw [hsame.facts, hfc, Facts.hold]
        simp only
        omega
      obtain ⟨w, hw, hkp⟩ := release_of_two_le htw
      have hct : Created v p := (created_iff hsame.nextPid).mpr hp.1
      obtain ⟨w', hw', hrg⟩ := hv.release hct (by omega) (.inr htw)
      obtain rfl : w = w' := some.inj (hw.symm.trans hw')
      exact ⟨w, hw, hrg, hkp⟩

theorem Live.registered (hp : Live s p) (h : Registry s) : Registered s p :=
  ⟨hp.1, h.live p hp.1 hp.2⟩

def ownIfZero (curr n : ℕ) : ℕ := if n = 0 then curr else n

section

variable (h : Registry s)

include h

theorem Registry.setpgid (hcr : Live s curr) (pid pgid : ℕ) :
    SetpgidEnds s curr (ownIfZero curr pid) (ownIfZero curr pgid)
      (comSysSyscallSetpgid s curr pid pgid) := by
  obtain ⟨g, hg⟩ := ne_none_iff_exists'.mp
    (h.grouped curr hcr.1 (hcr.registered h).2)
  obtain ⟨-, hlt, hme⟩ := h.member curr g hg
  obtain ⟨sid, hsd⟩ := ne_none_iff_exists'.mp (h.session g hlt)
  have hnn : ¬ ((pgid : ℤ) < 0 ∨ (pid : ℤ) < 0) := by omega
  have hak : (if (pgid : ℤ) = 0 then curr else (pgid : ℤ).toNat) = ownIfZero curr pgid := by
    simp [ownIfZero]
  have hin : InGroup s curr (ownIfZero curr pgid) ↔ ownIfZero curr pgid = (s.group g).pgid := by
    simp [InGroup, hg, hme, eq_comm]
  have hleads : Leads s curr ↔ curr = sid := by simp [Leads, hg, hsd, eq_comm]
  simp only [comSysSyscallSetpgid, if_neg hnn, hg, bind_some, hak, hsd]
  split
  · next heq => exact .already (hin.mpr heq)
  · next hne =>
    have hout := hin.not.mpr hne
    split
    · next hld => exact .refused hout (.inl (hleads.mpr hld)) h (SameGroups.refl s)
    · next hld =>
      have hleads' := hleads.not.mpr hld
      by_cases hz : pid = 0
      · subst hz
        have hmo := setpgidEnds_moveTo (k := some) hout hleads' (hcr.registered h)
          (fun hne => hne.1 rfl) h (SameGroups.refl s) (hcr.registered h) rfl
          fun v hv _ => ⟨v, rfl, hv, SameGroups.refl v⟩
        simpa [ownIfZero] using hmo
      · have how : ownIfZero curr pid = pid := if_neg hz
        rw [if_neg (by omega), how, comSysProcGetByPid]
        cases hfd : s.find pid with
        | none =>
          refine .failed hout hleads' (.inl fun hp => ?_)
          simp [h.toIndexed.find.mpr ⟨rfl, hp⟩] at hfd
        | some p =>
          obtain ⟨hpd, hp⟩ := h.toIndexed.find.mp hfd
          obtain rfl : pid = p := by omega
          exact h.setpgidOf hout hleads' hp

theorem Registry.setpgid_next (hcr : Live s curr) {pid pgid : ℤ}
    {r : Except Errno Unit} (hcl : comSysSyscallSetpgid s curr pid pgid = some (r, s')) :
    Registry s' := by
  by_cases hng : pgid < 0 ∨ pid < 0
  · simp only [comSysSyscallSetpgid, if_pos hng, some.injEq, Prod.mk.injEq] at hcl
    exact hcl.2 ▸ h
  · obtain ⟨hpg, hpd⟩ := not_or.mp hng
    lift pgid to ℕ using not_lt.mp hpg
    lift pid to ℕ using not_lt.mp hpd
    have hed := h.setpgid hcr pid pgid
    rw [hcl] at hed
    cases hed with
    | already => exact h
    | refused _ _ hs' => exact hs'
    | moved _ _ _ _ _ hs' => exact hs'

theorem newSession_isSome (hp : Created s p) :
    (comSysProcNewSessionNolock s p).isSome ↔ comSysProcGetGroupByPgid s p = none := by
  constructor
  · intro hsm
    obtain ⟨s', hs'⟩ := isSome_iff_exists.mp hsm
    exact (h.newSession hp hs').1
  · intro hfr
    obtain ⟨tree, htr⟩ := isSome_iff_exists.mp
      (put_isSome (v := s.nextGroup).mpr hfr)
    cases hg : (s.proc p).procGroup with
    | none =>
      simp [comSysProcNewSessionNolock, comSysProcNewGroup, comSysProcJoinGroupNolock, hg, htr]
    | some g =>
      obtain ⟨-, hlt, -⟩ := h.member p g hg
      simp [comSysProcNewSessionNolock, comSysProcNewGroup, comSysProcJoinGroupNolock, State.unlink,
        hg, htr, hlt.ne, h.session g hlt]

theorem Registry.newSession_next (hp : Created s p)
    (hnw : comSysProcNewSessionNolock s p = some s') : Registry s' ∧ InGroup s' p p := by
  obtain ⟨hfr, g, t, hmd, hmv⟩ := h.newSession hp hnw
  have hsame := sameFacts_newSession hnw
  have ht := hmd.registry h hp hfr
  have hlt : g < t.nextGroup := by
    rw [hmd.nextGroup, hmd.eq]
    exact Nat.lt_succ_self _
  have hfm : SameFacts t s' := ⟨hsame.nextPid.trans hmd.same.nextPid.symm, hsame.processes.trans
    hmd.same.processes.symm, fun q => (hsame.facts q).trans (hmd.same.facts q).symm⟩
  have hp' : Created t p := (created_iff hmd.same.nextPid).mpr hp
  exact ⟨hmv.registry_of_sameFacts hfm ht hp' hlt, hmd.pgid ▸ hmv.inGroup⟩

/-- A process that is not the leader of its group gets a session if it has made no group before. -/
theorem setsid_isSome (hcr : Live s curr) : (comSysSyscallSetsid s curr).isSome ↔
      InGroup s curr curr ∨ comSysProcGetGroupByPgid s curr = none := by
  obtain ⟨g, hg⟩ := ne_none_iff_exists'.mp
    (h.grouped curr hcr.1 (hcr.registered h).2)
  obtain ⟨-, -, hme⟩ := h.member curr g hg
  have hin : InGroup s curr curr ↔ (s.group g).pgid = curr := by simp [InGroup, hg, hme]
  simp only [comSysSyscallSetsid, hg, bind_some, hin]
  split
  · next hleads => simp [hleads]
  · next hleads =>
    rw [or_iff_right hleads, ← newSession_isSome h hcr.1]
    cases hnw : comSysProcNewSessionNolock s curr with
    | none => simp
    | some s' =>
      obtain ⟨g', hg', -⟩ := (h.newSession_next hcr.1 hnw).2
      simp [hg']

theorem Registry.setsid_next (hcr : Live s curr) {r : Except Errno ℕ}
    (hcl : comSysSyscallSetsid s curr = some (r, s')) : Registry s' := by
  obtain ⟨g, -, hcl⟩ := bind_eq_some_iff.mp hcl
  split at hcl
  · cases hcl
    exact h
  · obtain ⟨t, hnw, hcl⟩ := bind_eq_some_iff.mp hcl
    obtain ⟨g', -, hcl⟩ := map_eq_some_iff.mp hcl
    cases hcl
    exact (h.newSession_next hcr.1 hnw).1

theorem Registry.next {e : Event} (hen : Enabled s e)
    (hnx : next s e = some s') : Registry s' := by
  cases e with
  | fork p memory =>
    obtain ⟨⟨c, t⟩, hfk, rfl⟩ := map_eq_some_iff.mp hnx
    exact h.fork hen hfk
  | exit p status =>
    cases hnx
    exact h.exit p status
  | hold p =>
    cases hnx
    exact h.hold hen.2
  | release p =>
    obtain ⟨hp, hrf, hdr⟩ := hen
    obtain ⟨t, ht, hrg⟩ := h.release hp hrf hdr
    obtain rfl : t = s' := some.inj (ht.symm.trans hnx)
    exact hrg
  | execve p =>
    cases hnx
    exact h.of_same (sameFacts_modify fun _ => ⟨rfl, rfl, rfl, rfl⟩) (sameGroups_modify fun _ => rfl)
  | setpgid p pid pgid =>
    obtain ⟨⟨r, t⟩, hcl, rfl⟩ := map_eq_some_iff.mp hnx
    exact h.setpgid_next hen hcl
  | setsid p =>
    obtain ⟨⟨r, t⟩, hcl, rfl⟩ := map_eq_some_iff.mp hnx
    exact h.setsid_next hen hcl

end

theorem Reached.registry (h : Reached s) : Registry s := by
  obtain ⟨memory, s₀, hii, hrn⟩ := h
  exact hrn.invariant Registry (init_registry hii) fun _ _ _ hs hok hn => hs.next hok hn

structure Consistent (s : State) : Prop where
  once : ∀ q g, (s.proc q).procGroup = some g → (s.group g).procs.count q = 1
  elsewhere : ∀ q g k, (s.proc q).procGroup = some g → k ≠ g → q ∉ (s.group k).procs
  named : ∀ n ≤ procMax, ∀ g, comSysProcGetGroupByPgid s n = some g → (s.group g).pgid = n

theorem Registry.consistent (h : Registry s) : Consistent s := by
  refine ⟨fun q g hg => ?_, fun q g k hg hk => ?_, fun n hn g hg => ?_⟩
  · exact List.count_eq_one_of_mem (h.nodup g) (h.member q g hg).2.2
  · exact h.not_mem (by simpa [hg] using hk.symm)
  · have hlt : n < 512 ^ 2 := lt_of_le_of_lt hn (by decide)
    exact (h.found n hlt g hg).2

/-- The calls that the registry is about: `setpgid` by a process on itself, to a group of its own or
to one that exists. -/
def Covered (s : State) : Event → Prop
  | .setpgid _ pid pgid => pid = 0 ∧ (pgid = 0 ∨ ∃ g < s.nextGroup, pgid = (s.group g).pgid)
  | _ => True

def Condition (s : State) : Event → Prop
  | .fork _ _ => s.nextPid ≤ procMax
  | .setsid p => InGroup s p p ∨ ∀ g < s.nextGroup, (s.group g).pgid ≠ p
  | _ => True

theorem Registry.get_eq_none (h : Registry s) (hp : Created s p) :
    comSysProcGetGroupByPgid s p = none ↔ ∀ g < s.nextGroup, (s.group g).pgid ≠ p := by
  constructor
  · rintro hnon g hg rfl
    simp [(h.registered g hg).2] at hnon
  · intro hal
    refine eq_none_iff_forall_ne_some.mpr fun g hg => ?_
    obtain ⟨hlt, hpg⟩ := h.get_group hg
    exact hal g hlt (hpg.trans (Nat.mod_eq_of_lt (h.created_lt hp)))

theorem setpgid_isSome (h : Registry s) (hcr : Live s curr) {pgid : ℤ}
    (hpg : pgid = 0 ∨ ∃ g < s.nextGroup, pgid = (s.group g).pgid) :
    (comSysSyscallSetpgid s curr 0 pgid).isSome := by
  obtain ⟨n, rfl⟩ : ∃ n : ℕ, pgid = n := by
    rcases hpg with rfl | ⟨g, -, rfl⟩
    · exact ⟨0, rfl⟩
    · exact ⟨_, rfl⟩
  have hplace : Placeable s curr (ownIfZero curr n) := by
    by_cases hz : n = 0
    · simpa only [Placeable, ownIfZero, if_pos hz] using (em _).symm
    · obtain ⟨g, hg, hgo⟩ := hpg.resolve_left (by omega)
      have hfn := (h.registered g hg).2
      rw [ownIfZero, if_neg hz, Int.ofNat_inj.mp hgo]
      exact .inl (by simp [hfn])
  have hed := h.setpgid hcr 0 n
  generalize comSysSyscallSetpgid s curr 0 n = r at hed ⊢
  cases hed with
  | already => rfl
  | refused => rfl
  | moved => rfl
  | failed _ _ hwhy =>
    rcases hwhy with hp | ⟨-, hno⟩
    · exact absurd (hcr.registered h) hp
    · exact absurd hplace hno

/-- No assertion fails in a call that meets the condition. -/
theorem registry_consistent (s : State) (h : Reached s) :
    Consistent s ∧ ∀ e, Enabled s e → Covered s e → ((next s e).isSome ↔ Condition s e) := by
  have hrg := h.registry
  refine ⟨hrg.consistent, fun e hen hcovered => ?_⟩
  cases e with
  | fork p memory => 
    simpa only [next, isSome_map, Condition] using fork_isSome hrg hen
  | exit p status | hold p | execve p => exact iff_of_true rfl trivial
  | release p =>
    obtain ⟨hp, hrf, hdr⟩ := hen
    obtain ⟨t, ht, -⟩ := hrg.release hp hrf hdr
    exact iff_of_true (isSome_of_eq_some ht) trivial
  | setpgid p pid pgid =>
    refine iff_of_true ?_ trivial
    obtain ⟨rfl, hpg⟩ := hcovered
    simpa only [next, isSome_map] using setpgid_isSome hrg hen hpg
  | setsid p =>
    simp only [next, isSome_map, Condition, setsid_isSome hrg hen, hrg.get_eq_none hen.1]

theorem registry_consistent_forked : ∃ s, Reached s ∧ (next s (.setsid 2)).isSome := by
  have hre : ∃ s, Reached s ∧ Live s 2 ∧ s.nextGroup = 1 ∧ (s.group 0).pgid = 1 :=
    ⟨_, ⟨fun _ => none, _, rfl, .step .start (e := .fork 1 fun _ => none)
      ⟨⟨by decide, by decide⟩, rfl⟩ rfl⟩, ⟨⟨by decide, by decide⟩, rfl⟩, rfl, rfl⟩
  obtain ⟨s, hs, hlv, hnx, hpg⟩ := hre
  refine ⟨s, hs, ((registry_consistent s hs).2 (.setsid 2) hlv trivial).mpr (.inr fun g hg => ?_)⟩
  obtain rfl : g = 0 := by omega
  simp [hpg]

/-- The child makes a group, goes back to the group of its parent, and its `setsid` fails the
assertion that the leaf is empty. -/
theorem setsid_group_left : ∃ s₀ s, comInitPid1 (fun _ => none) = some s₀ ∧
    Runs.Reaches next (fun s e => Enabled s e ∧ Covered s e) s₀ s ∧ Live s 2 ∧
    next s (.setsid 2) = none :=
  ⟨_, _, rfl, .step (.step (.step .start
    (e := .fork 1 fun _ => none) ⟨⟨⟨by decide, by decide⟩, rfl⟩, trivial⟩ rfl)
    (e := .setpgid 2 0 0) ⟨⟨⟨by decide, by decide⟩, rfl⟩, rfl, .inl rfl⟩ rfl)
    (e := .setpgid 2 0 1) ⟨⟨⟨by decide, by decide⟩, rfl⟩, rfl, .inr ⟨0, by decide, rfl⟩⟩ rfl,
    ⟨⟨by decide, by decide⟩, rfl⟩, rfl⟩

end ProcessGroups
