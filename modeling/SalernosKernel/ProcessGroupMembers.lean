import SalernosKernel.ProcessGroups

/-! # Members of process groups

A child joins the group of its parent, and a process leaves its group with the last reference to it.
-/
namespace ProcessGroups

open ProcessTable ProcessReferences RadixTree Option
open State (enter unlink)

variable {s s' t : State} {p q g c : ℕ}

structure SameGroups (s s' : State) : Prop where
  procGroupMap : s'.procGroupMap = s.procGroupMap
  nextGroup : s'.nextGroup = s.nextGroup
  procGroup : ∀ q, (s'.proc q).procGroup = (s.proc q).procGroup
  group : s'.group = s.group

theorem SameGroups.refl (s : State) : SameGroups s s := ⟨rfl, rfl, fun _ => rfl, rfl⟩

theorem SameGroups.trans (h : SameGroups s s') (h' : SameGroups s' t) : SameGroups s t :=
  ⟨h'.procGroupMap.trans h.procGroupMap, h'.nextGroup.trans h.nextGroup,
    fun q => (h'.procGroup q).trans (h.procGroup q), h'.group.trans h.group⟩

theorem sameGroups_modify {k : Process → Process}
    (hk : ∀ proc : Process, (k proc).procGroup = proc.procGroup) : SameGroups s (s.modify p k) :=
  ⟨rfl, rfl, fun _ => modify_reads Process.procGroup hk, rfl⟩

theorem SameGroups.registry (h : SameGroups s s') (hs : Registry s) (hid : Indexed s')
    (hnx : s'.nextPid = s.nextPid)
    (hlv : ∀ q, Created s q → (facts s' q).exited = false → (facts s' q).numRef ≠ 0)
    (hrf : ∀ q, Created s q → (facts s' q).numRef ≠ 0 → (facts s q).numRef ≠ 0) : Registry s' := by
  have hcr : ∀ q, Created s' q ↔ Created s q := fun _ => created_iff hnx
  have hnm : SameNames s s' := ⟨h.procGroupMap, h.nextGroup, fun g => by rw [h.group],
    fun g => by rw [h.group]⟩
  obtain ⟨hss, hrg, hfn⟩ := hnm.registered hs fun q => (hcr q).mpr
  refine ⟨hid, ?_, ?_, ?_, ?_, ?_, hss, hrg, hfn⟩
  · intro q hq
    exact hlv q ((hcr q).mp hq)
  · intro q hq hne
    rw [h.procGroup]
    exact hs.grouped q ((hcr q).mp hq) (hrf q ((hcr q).mp hq) hne)
  · intro q g hg
    rw [h.procGroup] at hg
    rw [hcr, h.nextGroup, h.group]
    exact hs.member q g hg
  · intro g q hq
    rw [h.procGroup]
    exact hs.only g q (h.group ▸ hq)
  · intro g
    rw [h.group]
    exact hs.nodup g

theorem Registry.exit (h : Registry s) (p : ℕ) (status : ℤ) :
    Registry (comSysProcExit s p status []) := by
  obtain ⟨hid, hei⟩ := exit_spec h.toIndexed p status []
  have hsm : SameGroups s (comSysProcExit s p status []) := by
    have hsn : ∀ (t : State) (pid : ℤ) sig, SameGroups t (t.sendToPid pid sig) := by
      intro t pid sig
      unfold State.sendToPid comSysProcGetByPid
      cases t.find pid with
      | none => exact SameGroups.refl t
      | some r =>
        have hhl : SameGroups t (t.hold r) := sameGroups_modify fun _ => rfl
        exact hhl.trans (sameGroups_modify fun _ => rfl)
    unfold comSysProcExit
    have hmr : SameGroups s (s.modify p fun proc => { proc with
        exitStatus := status
        signals := { proc.signals with exited := true } }) := sameGroups_modify fun _ => rfl
    exact (hmr.trans (hsn _ _ _)).trans (sameGroups_modify fun _ => rfl)
  refine hsm.registry h hid hei.nextPid (fun q hq het => ?_) fun q hq =>
    (h.toIndexed.referenced hid hei.nextPid hei.processes hq).mp
  rw [hei.exited] at het
  split at het
  · cases het
  · have hle := hei.numRef q
    have hne := h.live q hq het
    omega

structure Removed (p : ℕ) (s s' : State) : Prop where
  procGroupMap : s'.procGroupMap = s.procGroupMap
  nextGroup : s'.nextGroup = s.nextGroup
  procGroup : ∀ q, (s'.proc q).procGroup = if q = p then none else (s.proc q).procGroup
  group : ∀ k, s'.group k = { s.group k with procs := (s.group k).procs.erase p }

theorem hide_removed (h : ∀ k q, q ∈ (s.group k).procs → (s.proc q).procGroup = some k)
    (hhd : comSysProcHide s p = some s') : Removed p s s' := by
  obtain ⟨tree, -, rfl⟩ := map_eq_some_iff.mp hhd
  dsimp only
  cases hp : (s.proc p).procGroup with
  | none =>
    refine ⟨rfl, rfl, fun q => ?_, fun k => ?_⟩
    · by_cases hq : q = p <;> simp [hq]
    · have hou : p ∉ (s.group k).procs := fun hin => by simp [h k p hin] at hp
      simp [List.erase_of_not_mem hou]
  | some g =>
    refine ⟨rfl, rfl, fun q => ?_, fun k => ?_⟩
    · by_cases hq : q = p <;> simp [unlink, hq]
    · by_cases hk : k = g
      · subst hk
        simp [unlink]
      · have hou : p ∉ (s.group k).procs := fun hin =>
          hk (some.inj ((h k p hin).symm.trans hp))
        simp [unlink, hk, List.erase_of_not_mem hou]

theorem Removed.registry (h : Removed p s s') (hs : Registry s) (hid : Indexed s')
    (hnx : s'.nextPid = s.nextPid)
    (hfc : ∀ q, q ≠ p → facts s' q = facts s q)
    (hp : (facts s' p).exited = true ∧ (facts s' p).numRef = 0) : Registry s' := by
  have hcr : ∀ q, Created s' q ↔ Created s q := fun _ => created_iff hnx
  have hnm : SameNames s s' := ⟨h.procGroupMap, h.nextGroup, fun g => by rw [h.group],
    fun g => by rw [h.group]⟩
  have hme : ∀ k q, q ∈ (s'.group k).procs ↔ q ≠ p ∧ q ∈ (s.group k).procs := by
    intro k q
    rw [h.group, (hs.nodup k).mem_erase_iff]
  obtain ⟨hss, hrg, hfn⟩ := hnm.registered hs fun q => (hcr q).mpr
  refine ⟨hid, ?_, ?_, ?_, ?_, ?_, hss, hrg, hfn⟩
  · intro q hq het
    have hqp : q ≠ p := by
      rintro rfl
      simp [hp.1] at het
    rw [hfc q hqp] at het ⊢
    exact hs.live q ((hcr q).mp hq) het
  · intro q hq hne
    have hqp : q ≠ p := by
      rintro rfl
      exact hne hp.2
    rw [hfc q hqp] at hne
    rw [h.procGroup, if_neg hqp]
    exact hs.grouped q ((hcr q).mp hq) hne
  · intro q g hg
    rw [h.procGroup] at hg
    by_cases hqp : q = p
    · simp [hqp] at hg
    · rw [if_neg hqp] at hg
      obtain ⟨hc, hlt, hin⟩ := hs.member q g hg
      rw [hcr, h.nextGroup, hme]
      exact ⟨hc, hlt, hqp, hin⟩
  · intro g q hq
    obtain ⟨hqp, hin⟩ := (hme g q).mp hq
    rw [h.procGroup, if_neg hqp]
    exact hs.only g q hin
  · intro g
    rw [h.group]
    exact (hs.nodup g).erase p

theorem release_of_two_le (h : 2 ≤ (facts s p).numRef) :
    ∃ s', s.release p = some s' ∧ SameGroups s s' := by
  have hne : (s.proc p).numRef - 1 ≠ 0 := by
    have : 2 ≤ (s.proc p).numRef := h
    omega
  let t := s.modify p fun proc => { proc with numRef := proc.numRef - 1 }
  have hgr : SameGroups s t := sameGroups_modify fun _ => rfl
  exact ⟨t, by simp [State.release, hne, t], hgr⟩

theorem Registry.release (h : Registry s) (hp : Created s p) (hrf : (facts s p).numRef ≠ 0)
    (hdr : (facts s p).exited = true ∨ 2 ≤ (facts s p).numRef) :
    ∃ s', s.release p = some s' ∧ Registry s' := by
  obtain ⟨s', hrl, hid, hch⟩ := h.toIndexed.release hp hrf
  refine ⟨s', hrl, ?_⟩
  have hfc : ∀ q, q ≠ p → facts s' q = facts s q := fun q hq => by
    rw [hch.facts, if_neg hq]
  have hp' : facts s' p = (facts s p).release := by rw [hch.facts, if_pos rfl]
  by_cases hon : (facts s p).numRef = 1
  · let t := s.modify p fun proc => { proc with numRef := proc.numRef - 1 }
    have hhd : comSysProcHide t p = some s' := by
      have hz : (s.proc p).numRef - 1 = 0 := by
        have : (s.proc p).numRef = 1 := hon
        omega
      simpa [State.release, t, hz] using hrl
    have hgr : SameGroups s t := sameGroups_modify fun _ => rfl
    have hrm := hide_removed (fun k q hq => (hgr.procGroup q).trans (h.only k q hq)) hhd
    have hrm' : Removed p s s' := ⟨hrm.procGroupMap, hrm.nextGroup, fun q => by
      rw [hrm.procGroup, hgr.procGroup], hrm.group⟩
    exact hrm'.registry h hid hch.nextPid hfc
      ⟨by rw [hp']; exact hdr.resolve_right (by omega), by rw [hp']; simp [Facts.release, hon]⟩
  · have htw : 2 ≤ (facts s p).numRef := by omega
    obtain ⟨t, ht, hgr⟩ := release_of_two_le htw
    obtain rfl : t = s' := some.inj (ht.symm.trans hrl)
    refine hgr.registry h hid hch.nextPid (fun q hq hlv => ?_) fun q hq hne => ?_
    · by_cases hqp : q = p
      · subst hqp
        have hkp : (facts s q).numRef - 1 ≠ 0 := by omega
        rwa [hp']
      · rw [hfc q hqp] at hlv ⊢
        exact h.live q hq hlv
    · by_cases hqp : q = p
      · exact hqp ▸ hrf
      · rwa [hfc q hqp] at hne

theorem Registry.hold (h : Registry s) (hrf : (facts s p).numRef ≠ 0) : Registry (s.hold p) := by
  have hgr : SameGroups s (s.hold p) := sameGroups_modify fun _ => rfl
  have hfc := (changed_hold s p).facts
  refine hgr.registry h (h.toIndexed.hold hrf) rfl (fun q hq hlv => ?_) fun q hq hne => ?_
  · rw [hfc] at hlv ⊢
    by_cases hqp : q = p
    · simp [hqp, Facts.hold]
    · rw [if_neg hqp] at hlv ⊢
      exact h.live q hq hlv
  · by_cases hqp : q = p
    · exact hqp ▸ hrf
    · rwa [hfc, if_neg hqp] at hne

theorem Registry.of_same (h : Registry s) (hfc : SameFacts s s') (hgr : SameGroups s s') :
    Registry s' := by
  refine hgr.registry h (hfc.indexed h.toIndexed) hfc.nextPid (fun q => ?_) fun q _ => ?_
  · rw [hfc.facts]
    exact h.live q
  · rw [hfc.facts]
    exact id

theorem Moved.trans_same (h : Moved p g s s') (h' : SameGroups s' t) : Moved p g s t :=
  ⟨h'.procGroupMap.trans h.procGroupMap, h'.nextGroup.trans h.nextGroup, fun q => (h'.procGroup
    q).trans (h.procGroup q), fun k => (congrFun h'.group k).trans (h.group k)⟩

theorem Registry.put_isSome (h : Registry s) :
    (kradixtreePutNolock s.processes (s.nextPid - 1) s.nextPid).isSome := by
  refine RadixTree.put_isSome.mpr (eq_none_iff_forall_not_mem.mpr fun q hq => ?_)
  have hbd := h.bound
  have hlt : s.nextPid - 1 < 512 ^ 2 := by
    norm_num [procMax] at hbd ⊢
    omega
  obtain ⟨rfl, hcr, -⟩ := (h.get _ hlt q).mp hq
  have := hcr.2
  omega

variable {memory : Signals.Signal → Option Signals.Sigaction}

theorem Registry.new (h : Registry s)
    (hp : Live s p) (hg : (s.proc p).procGroup = some g) (hmx : s.nextPid ≤ procMax) :
    ∃ s', comSysProcNew s p memory = some (s.nextPid, s') ∧ Moved s.nextPid g s s' := by
  obtain ⟨tree, htr⟩ := isSome_iff_exists.mp h.put_isSome
  let t : State := { s with
    nextPid := s.nextPid + 1
    processes := tree
    proc := Function.update s.proc s.nextPid (Process.new p memory) }
  have ht : Indexed t := h.toIndexed.register hmx Nat.one_ne_zero htr
  have hne : p ≠ s.nextPid := hp.1.2.ne
  have hpr : t.proc p = s.proc p := Function.update_of_ne hne _ _
  have hfc : facts t p = facts s p := by simp only [facts, hpr]
  have hlv : (facts t p).numRef ≠ 0 := hfc ▸ h.live p hp.1 hp.2
  have hfd : t.find p = some p := ht.find.mpr ⟨rfl, ⟨hp.1.1, Nat.lt_succ_of_lt hp.1.2⟩, hlv⟩
  let u := (t.hold p).enter s.nextPid g
  have hu : facts u p = (facts t p).hold := by
    rw [sameFacts_enter.facts, (changed_hold t p).facts, if_pos rfl]
  have htw : 2 ≤ (facts u p).numRef := by
    have : (facts u p).numRef = (facts t p).numRef + 1 := by rw [hu]; rfl
    omega
  obtain ⟨s', hrl, hgr⟩ := release_of_two_le htw
  have hjn : comSysProcJoinGroupNolock (t.hold p) s.nextPid g = some u := by
    have hno : ((t.hold p).proc s.nextPid).procGroup = none := by
      simp [State.hold, hne.symm, t, Process.new]
    rw [comSysProcJoinGroupNolock, hno]
  have hmv : Moved s.nextPid g s u := by
    refine ⟨rfl, rfl, fun q => ?_, fun k => ?_⟩
    · by_cases hq : q = s.nextPid
      · simp [u, enter, hq]
      · by_cases hqp : q = p
        · simp [u, t, enter, State.hold, hqp, hne]
        · simp [u, t, enter, State.hold, hq, hqp]
    · have hou : s.nextPid ∉ (s.group k).procs := fun hin =>
        lt_irrefl _ (h.member _ k (h.only k _ hin)).1.2
      rw [List.erase_of_not_mem hou]
      by_cases hk : k = g
      · subst hk
        simp [u, t, enter, State.hold]
      · simp [u, t, enter, State.hold, hk]
  refine ⟨s', ?_, hmv.trans_same hgr⟩
  have hgp : ((t.hold p).proc p).procGroup = some g := by simp [State.hold, hpr, hg]
  have hgt : comSysProcGetByPid t p = (some p, t.hold p) := by rw [comSysProcGetByPid, hfd]
  rw [comSysProcNew, if_pos hmx]
  refine bind_eq_some_iff.mpr ⟨tree, htr, ?_⟩
  simp only [t] at hgt hgp hjn
  simp only [hgt, hgp, hjn, bind_some, hrl, map_some]

theorem fork_isSome (h : Registry s)
    (hp : Live s p) : (comSysSyscallFork s p memory).isSome ↔ s.nextPid ≤ procMax := by
  rw [comSysSyscallFork, isSome_map]
  constructor
  · intro hso
    by_contra hmx
    simp [comSysProcNew, hmx] at hso
  · intro hmx
    obtain ⟨g, hg⟩ := ne_none_iff_exists'.mp (h.grouped p hp.1 (h.live p hp.1 hp.2))
    obtain ⟨s', hnw, -⟩ := h.new hp hg hmx
    exact isSome_of_eq_some hnw

theorem fork_sameGroups (hnw : comSysProcNew s p memory = some (c, t))
    (hfr : comSysSyscallFork s p memory = some (q, s')) : SameGroups t s' := by
  obtain ⟨made, hmd, hfr⟩ := map_eq_some_iff.mp hfr
  obtain rfl : (c, t) = made := some.inj (hnw.symm.trans hmd)
  cases hfr
  have hhld : SameGroups t (t.hold c) := sameGroups_modify fun _ => rfl
  have hth : SameGroups t (t.addThread c) := hhld.trans (sameGroups_modify fun _ => rfl)
  have hpa : SameGroups t ((t.addThread c).modify p fun proc =>
      { proc with numChildren := proc.numChildren + 1 }) :=
    hth.trans (sameGroups_modify fun _ => rfl)
  exact hpa.trans (sameGroups_modify fun _ => rfl)

theorem Registry.fork (h : Registry s)
    (hp : Live s p) (hfr : comSysSyscallFork s p memory = some (c, s')) : Registry s' := by
  have hmx := (fork_isSome h hp).mp (isSome_of_eq_some hfr)
  obtain ⟨-, hid, had⟩ := fork_spec h.toIndexed hp.1 hfr
  obtain ⟨g, hg⟩ := ne_none_iff_exists'.mp (h.grouped p hp.1 (h.live p hp.1 hp.2))
  obtain ⟨t, hnw, hmv⟩ : ∃ t, comSysProcNew s p memory = some (s.nextPid, t) ∧
    Moved s.nextPid g s t := h.new hp hg hmx
  have hnx := had.nextPid
  have hcl : facts s' s.nextPid = ⟨p, 0, 2, false⟩ := by rw [had.facts, if_pos rfl]
  have hfc : ∀ q, q ≠ s.nextPid → (facts s' q).exited = (facts s q).exited ∧
      (facts s' q).numRef = (facts s q).numRef := by
    intro q hq
    rw [had.facts, if_neg hq]
    split
    · next hqp => exact hqp ▸ ⟨rfl, rfl⟩
    · exact ⟨rfl, rfl⟩
  have hold : ∀ q, q ≠ s.nextPid → Created s' q → Created s q := by
    rintro q hq ⟨hps, hlt⟩
    exact ⟨hps, by omega⟩
  refine (hmv.trans_same (fork_sameGroups hnw hfr)).registry h (h.member p g hg).2.1 hid
    ⟨h.pos, by omega⟩ (fun q hq => ⟨hq.1, by have := hq.2; omega⟩) (fun q hq het => ?_)
    fun q hne hq hrf => ?_
  · by_cases hne : q = s.nextPid
    · simp [hne, hcl]
    · rw [(hfc q hne).1] at het
      rw [(hfc q hne).2]
      exact h.live q (hold q hne hq) het
  · rw [(hfc q hne).2] at hrf
    exact ⟨hold q hne hq, hrf⟩

theorem init_sameGroups {c : ℕ}
    (h : comSysProcNew .empty 0 memory = some (c, t)) : SameGroups .empty (t.addThread c) := by
  rw [comSysProcNew, if_pos (by decide)] at h
  obtain ⟨tree, -, h⟩ := bind_eq_some_iff.mp h
  cases h
  refine ⟨rfl, rfl, fun q => ?_, rfl⟩
  by_cases hq : q = 1
  · simp [State.addThread, State.hold, State.empty, Process.new, hq]
  · simp [State.addThread, State.hold, State.empty, Process.new, hq]

theorem init_groups (h : comInitPid1 memory = some s) :
    s.nextGroup = 1 ∧ (∀ q, (s.proc q).procGroup = if q = 1 then some 0 else none) ∧
      (∀ k, s.group k = if k = 0 then ⟨1, some 1, [1]⟩ else ⟨0, none, []⟩) ∧
      ∀ i < 512 ^ 2, comSysProcGetGroupByPgid s i = if i = 1 then some 0 else none := by
  obtain ⟨⟨c, t⟩, hnw, hss⟩ := bind_eq_some_iff.mp h
  obtain rfl : c = 1 := (new_spec indexed_empty hnw).1
  have hsm := init_sameGroups hnw
  generalize t.addThread 1 = u at hsm hss
  have hno : ∀ q, (u.proc q).procGroup = none := hsm.procGroup
  simp only [comSysProcNewSessionNolock, hno] at hss
  obtain ⟨⟨g, v⟩, hmd, hjn⟩ := bind_eq_some_iff.mp hss
  obtain ⟨map, hmp, hmd⟩ := map_eq_some_iff.mp hmd
  cases hmd
  simp only [comSysProcJoinGroupNolock, hno, some.injEq] at hjn
  obtain ⟨hgm, hng, -, hgp⟩ := hsm
  refine ⟨by simp [← hjn, enter, hng, State.empty], fun q => ?_, fun k => ?_,
    fun i hi => ?_⟩
  · by_cases hq : q = 1
    · simp [← hjn, enter, hq, hng, State.empty]
    · simp [← hjn, enter, hq, hno]
  · by_cases hk : k = 0
    · simp [← hjn, enter, hk, hgp, hng, State.empty]
    · simp [← hjn, enter, hk, hgp, hng, State.empty]
  · have htr : s.procGroupMap = map := by rw [← hjn]; rfl
    have hbl : kradixtreeGetNolock u.procGroupMap i = none := by
      rw [hgm]
      exact RadixTable.getD_lookup_blank none _
    rw [comSysProcGetGroupByPgid, htr, get_put hmp, hbl, hng]
    simp only [splitIndex_eq hi (by decide : 1 < 512 ^ 2)]
    rfl

theorem init_registry (h : comInitPid1 memory = some s) : Registry s := by
  obtain ⟨hid, hnx, hfc⟩ := init_spec h
  obtain ⟨hgn, hpr, hgr, hgt⟩ := init_groups h
  have hcr : ∀ q, Created s q ↔ q = 1 := fun q => by
    rw [Created, hnx]
    omega
  refine ⟨hid, ?_, ?_, ?_, ?_, ?_, ?_, ?_, ?_⟩
  · intro q hq _
    rw [(hcr q).mp hq, hfc]
    decide
  · intro q hq _
    rw [hpr, if_pos ((hcr q).mp hq)]
    simp
  · intro q g hg
    rw [hpr] at hg
    split at hg
    · next hq =>
      obtain rfl := some.inj hg
      rw [hcr, hgn, hgr]
      exact ⟨hq, by decide, by simp [hq]⟩
    · cases hg
  · intro g q hq
    rw [hgr] at hq
    split at hq
    · next hg =>
      rw [hpr, if_pos (List.mem_singleton.mp hq), hg]
    · cases hq
  · intro g
    rw [hgr]
    split <;> simp
  · intro g hg
    rw [hgn, Nat.lt_one_iff] at hg
    simp [hgr, hg]
  · intro g hg
    rw [hgn, Nat.lt_one_iff] at hg
    rw [hgr, if_pos hg, hcr, hgt 1 (by decide), hg]
    exact ⟨rfl, rfl⟩
  · intro i hi g hg
    rw [hgt i hi] at hg
    split at hg
    · next hi =>
      obtain rfl := some.inj hg
      rw [hgn, hgr, hi]
      exact ⟨by decide, rfl⟩
    · cases hg
end ProcessGroups
