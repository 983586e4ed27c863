import SalernosKernel.ProcessReferences
import SalernosKernel.TailQueue

/-! # Process groups

`setpgid` and `setsid`, with what makes and removes processes. -/
namespace ProcessGroups

open ProcessTable ProcessReferences RadixTree List Option
open State (enter unlink)

/-- The end of `setpgid`, where `pgid` is looked up. No result is a failed assertion or an access
through a null pointer, here and below. -/
def moveTo (s : State) (p pgid : ℕ) : Option (Except Errno Unit × State) :=
  if (s.proc p).didExecve then some (.error .EACCES, s)
  else
    let found := match comSysProcGetGroupByPgid s pgid with
      | some g => some (g, s)
      | none => comSysProcNewGroup s p none
    found.bind fun found =>
      (comSysProcJoinGroupNolock found.2 p found.1).map fun s => (.ok (), s)

def setpgidOf (s : State) (curr p pgid : ℕ) : Option (Except Errno Unit × State) :=
  let result := if p ≠ curr ∧ (s.proc p).parentPid ≠ curr then some (.error .ESRCH, s)
    else moveTo s p pgid
  if p = curr then result
  else result.bind fun r => (r.2.release p).map fun s => (r.1, s)

def comSysSyscallSetpgid (s : State) (curr : ℕ) (pid pgid : ℤ) :
    Option (Except Errno Unit × State) :=
  if pgid < 0 ∨ pid < 0 then some (.error .EINVAL, s)
  else
    (s.proc curr).procGroup.bind fun g =>
      let pgid := if pgid = 0 then curr else pgid.toNat
      if pgid = (s.group g).pgid then some (.ok (), s)
      else
        (s.group g).session.bind fun sid =>
          if curr = sid then some (.error .EPERM, s)
          else if pid = 0 then moveTo s curr pgid
          else
            match comSysProcGetByPid s pid with
            | (none, _) => none
            | (some p, s) => setpgidOf s curr p pgid

def comSysSyscallSetsid (s : State) (curr : ℕ) : Option (Except Errno ℕ × State) :=
  (s.proc curr).procGroup.bind fun g =>
    if (s.group g).pgid = curr then some (.error .EPERM, s)
    else
      (comSysProcNewSessionNolock s curr).bind fun s =>
        (s.proc curr).procGroup.map fun g => (.ok (s.group g).pgid, s)

inductive Event where
  | fork (p : ℕ) (memory : Signals.Signal → Option Signals.Sigaction)
  | exit (p : ℕ) (status : ℤ)
  /-- References of others, as of `kill` and `waitpid`. A process is hidden with the last one. -/
  | hold (p : ℕ)
  | release (p : ℕ)
  | execve (p : ℕ)
  | setpgid (p : ℕ) (pid pgid : ℤ)
  | setsid (p : ℕ)

def Live (s : State) (p : ℕ) : Prop := Created s p ∧ (facts s p).exited = false

def Enabled (s : State) : Event → Prop
  | .fork p _ | .exit p _ | .execve p | .setpgid p _ _ | .setsid p => Live s p
  | .hold p => Created s p ∧ (facts s p).numRef ≠ 0
  -- One reference belongs to the thread of a process that runs.
  | .release p => Created s p ∧ (facts s p).numRef ≠ 0 ∧
    ((facts s p).exited = true ∨ 2 ≤ (facts s p).numRef)

def next (s : State) : Event → Option State
  | .fork p memory => (comSysSyscallFork s p memory).map Prod.snd
  | .exit p status => some (comSysProcExit s p status [])
  | .hold p => some (s.hold p)
  | .release p => s.release p
  | .execve p => some (s.modify p fun proc => { proc with didExecve := true })
  | .setpgid p pid pgid => (comSysSyscallSetpgid s p pid pgid).map Prod.snd
  | .setsid p => (comSysSyscallSetsid s p).map Prod.snd

def Reached (s : State) : Prop :=
  ∃ memory s₀, comInitPid1 memory = some s₀ ∧ Runs.Reaches next Enabled s₀ s

structure Registry (s : State) : Prop extends Indexed s where
  live : ∀ q, Created s q → (facts s q).exited = false → (facts s q).numRef ≠ 0
  grouped : ∀ q, Created s q → (facts s q).numRef ≠ 0 → (s.proc q).procGroup ≠ none
  member : ∀ q g, (s.proc q).procGroup = some g →
    Created s q ∧ g < s.nextGroup ∧ q ∈ (s.group g).procs
  only : ∀ g q, q ∈ (s.group g).procs → (s.proc q).procGroup = some g
  nodup : ∀ g, (s.group g).procs.Nodup
  session : ∀ g < s.nextGroup, (s.group g).session ≠ none
  registered : ∀ g < s.nextGroup, Created s (s.group g).pgid ∧
    comSysProcGetGroupByPgid s (s.group g).pgid = some g
  found : ∀ i < 512 ^ 2, ∀ g, comSysProcGetGroupByPgid s i = some g →
    g < s.nextGroup ∧ (s.group g).pgid = i

variable {s s' t : State} {p q g c : ℕ}

structure SameNames (s s' : State) : Prop where
  procGroupMap : s'.procGroupMap = s.procGroupMap
  nextGroup : s'.nextGroup = s.nextGroup
  pgid : ∀ g, (s'.group g).pgid = (s.group g).pgid
  session : ∀ g, (s'.group g).session = (s.group g).session

theorem SameNames.registered (h : SameNames s s') (hs : Registry s)
    (hcr : ∀ q, Created s q → Created s' q) :
    (∀ g < s'.nextGroup, (s'.group g).session ≠ none) ∧
      (∀ g < s'.nextGroup, Created s' (s'.group g).pgid ∧
        comSysProcGetGroupByPgid s' (s'.group g).pgid = some g) ∧
      ∀ i < 512 ^ 2, ∀ g, comSysProcGetGroupByPgid s' i = some g →
        g < s'.nextGroup ∧ (s'.group g).pgid = i := by
  simp only [comSysProcGetGroupByPgid, h.procGroupMap, h.nextGroup, h.pgid, h.session]
  refine ⟨hs.session, fun g hg => ?_, hs.found⟩
  obtain ⟨hc, hgt⟩ := hs.registered g hg
  exact ⟨hcr _ hc, hgt⟩

structure Moved (p g : ℕ) (s s' : State) : Prop where
  procGroupMap : s'.procGroupMap = s.procGroupMap
  nextGroup : s'.nextGroup = s.nextGroup
  procGroup : ∀ q, (s'.proc q).procGroup = if q = p then some g else (s.proc q).procGroup
  group : ∀ k, s'.group k = { s.group k with
    procs := (s.group k).procs.erase p ++ if k = g then [p] else [] }

theorem Moved.registry (h : Moved p g s s') (hs : Registry s) (hg : g < s.nextGroup)
    (hid : Indexed s') (hp : Created s' p) (hcr : ∀ q, Created s q → Created s' q)
    (hlv : ∀ q, Created s' q → (facts s' q).exited = false → (facts s' q).numRef ≠ 0)
    (hot : ∀ q, q ≠ p → Created s' q → (facts s' q).numRef ≠ 0 →
      Created s q ∧ (facts s q).numRef ≠ 0) : Registry s' := by
  have hnm : SameNames s s' := ⟨h.procGroupMap, h.nextGroup, fun k => by rw [h.group],
    fun k => by rw [h.group]⟩
  have hme : ∀ k q, q ∈ (s'.group k).procs ↔
      q ≠ p ∧ q ∈ (s.group k).procs ∨ q = p ∧ k = g := by
    intro k q
    rw [h.group, mem_append, (hs.nodup k).mem_erase_iff]
    by_cases hk : k = g <;> simp [hk]
  obtain ⟨hss, hrg, hfn⟩ := hnm.registered hs hcr
  refine ⟨hid, hlv, ?_, ?_, ?_, ?_, hss, hrg, hfn⟩
  · intro q hq hne
    rw [h.procGroup]
    by_cases hqp : q = p
    · simp [hqp]
    · rw [if_neg hqp]
      obtain ⟨hc, hne⟩ := hot q hqp hq hne
      exact hs.grouped q hc hne
  · intro q k hk
    rw [h.procGroup] at hk
    rw [h.nextGroup, hme]
    by_cases hq : q = p
    · obtain rfl : g = k := by simpa [hq] using hk
      exact ⟨hq ▸ hp, hg, .inr ⟨hq, rfl⟩⟩
    · rw [if_neg hq] at hk
      obtain ⟨hc, hlt, hin⟩ := hs.member q k hk
      exact ⟨hcr q hc, hlt, .inl ⟨hq, hin⟩⟩
  · intro k q hq
    rw [h.procGroup]
    rcases (hme k q).mp hq with ⟨hne, hin⟩ | ⟨rfl, rfl⟩
    · rw [if_neg hne]
      exact hs.only k q hin
    · exact if_pos rfl
  · intro k
    rw [h.group]
    by_cases hk : k = g
    · simp only [hk, if_true]
      refine Nodup.append ((hs.nodup g).erase p) (nodup_singleton p) ?_
      simpa using (hs.nodup g).not_mem_erase
    · simpa [hk] using (hs.nodup k).erase p

theorem Moved.registry_of_sameFacts (h : Moved p g s s') (hsm : SameFacts s s') (hs : Registry s)
    (hp : Created s p) (hg : g < s.nextGroup) : Registry s' := by
  have hcr : ∀ q, Created s' q ↔ Created s q := fun _ => created_iff hsm.nextPid
  refine h.registry hs hg (hsm.indexed hs.toIndexed) ((hcr p).mpr hp)
    (fun q => (hcr q).mpr) (fun q => ?_) fun q _ => ?_
  · rw [hcr, hsm.facts]
    exact hs.live q
  · rw [hcr, hsm.facts]
    exact And.intro

theorem Registry.not_mem (h : Registry s) (hq : (s.proc q).procGroup ≠ some g) :
    q ∉ (s.group g).procs := fun hin => hq (h.only g q hin)

theorem Registry.join (h : Registry s) (hjn : comSysProcJoinGroupNolock s p g = some s') :
    Moved p g s s' := by
  unfold comSysProcJoinGroupNolock at hjn
  cases hp : (s.proc p).procGroup with
  | none =>
    simp only [hp] at hjn
    cases hjn
    refine ⟨rfl, rfl, fun q => ?_, fun k => ?_⟩
    · by_cases hq : q = p <;> simp [enter, hq]
    · rw [erase_of_not_mem (h.not_mem (by simp [hp]))]
      by_cases hk : k = g <;> simp [enter, hk]
  | some old =>
    simp only [hp] at hjn
    split at hjn
    · cases hjn
    · cases hjn
      refine ⟨rfl, rfl, fun q => ?_, fun k => ?_⟩
      · by_cases hq : q = p <;> simp [enter, unlink, hq]
      · by_cases hold : k = old
        · subst hold
          by_cases hk : k = g <;> simp [enter, unlink, hk]
        · rw [erase_of_not_mem (h.not_mem (by simpa [hp] using fun he => hold he.symm))]
          by_cases hk : k = g
          · subst hk
            simp [enter, unlink, hold]
          · simp [enter, unlink, hk, hold]

theorem Registry.join_isSome (h : Registry s) (hg : g < s.nextGroup) :
    (comSysProcJoinGroupNolock s p g).isSome := by
  unfold comSysProcJoinGroupNolock
  cases hp : (s.proc p).procGroup with
  | none => rfl
  | some old => simp [h.session old (h.member p old hp).2.1, h.session g hg]

structure Made (p g : ℕ) (s s' : State) : Prop where
  same : SameFacts s s'
  proc : s'.proc = s.proc
  eq : g = s.nextGroup
  nextGroup : s'.nextGroup = s.nextGroup + 1
  pgid : (s'.group g).pgid = p
  session : (s'.group g).session ≠ none
  procs : (s'.group g).procs = []
  others : ∀ k, k ≠ g → s'.group k = s.group k
  map : ∀ i < 512 ^ 2, comSysProcGetGroupByPgid s' i =
    if i = p then some g else comSysProcGetGroupByPgid s i

theorem Registry.newGroup {session : Option ℕ} (h : Registry s) (hp : Created s p)
    (hss : session ≠ none ∨ (s.proc p).procGroup ≠ none)
    (hnw : comSysProcNewGroup s p session = some (g, s')) : Made p g s s' := by
  have hsm := sameFacts_newGroup hnw
  obtain ⟨tree, htr, hnw⟩ := map_eq_some_iff.mp hnw
  cases hnw
  refine ⟨hsm, rfl, rfl, rfl, by simp, ?_, by simp, fun k hk => by simp [hk], fun i hi => ?_⟩
  · cases session with
    | some sid => simp
    | none =>
      obtain ⟨old, hold⟩ := ne_none_iff_exists'.mp (hss.resolve_left (by simp))
      simpa [hold] using h.session old (h.member p old hold).2.1
  · rw [comSysProcGetGroupByPgid, get_put htr]
    simp only [splitIndex_eq hi (h.created_lt hp)]
    rfl

theorem newGroup_isSome {session : Option ℕ} :
    (comSysProcNewGroup s p session).isSome ↔ comSysProcGetGroupByPgid s p = none := by
  simp only [comSysProcNewGroup, isSome_map]
  exact put_isSome

theorem Made.registry (h : Made p g s s') (hs : Registry s) (hp : Created s p)
    (hfr : comSysProcGetGroupByPgid s p = none) : Registry s' := by
  have hcr : ∀ q, Created s' q ↔ Created s q := fun _ =>
    created_iff h.same.nextPid
  have hgr : ∀ k < s.nextGroup, s'.group k = s.group k := fun k hk =>
    h.others k (h.eq ▸ hk.ne)
  have hcs : ∀ k < s'.nextGroup, k < s.nextGroup ∨ k = g := by
    intro k hk
    rw [h.nextGroup] at hk
    rw [h.eq]
    omega
  refine ⟨h.same.indexed hs.toIndexed, ?_, ?_, ?_, ?_, ?_, ?_, ?_, ?_⟩
  · intro q
    rw [hcr, h.same.facts]
    exact hs.live q
  · intro q
    rw [hcr, h.same.facts, h.proc]
    exact hs.grouped q
  · intro q k hk
    rw [h.proc] at hk
    obtain ⟨hc, hlt, hin⟩ := hs.member q k hk
    rw [hcr, h.nextGroup, hgr k hlt]
    exact ⟨hc, Nat.lt_succ_of_lt hlt, hin⟩
  · intro k q hq
    rw [h.proc]
    by_cases hk : k = g
    · subst hk
      simp [h.procs] at hq
    · exact hs.only k q (h.others k hk ▸ hq)
  · intro k
    by_cases hk : k = g
    · subst hk
      simp [h.procs]
    · rw [h.others k hk]
      exact hs.nodup k
  · intro k hk
    rcases hcs k hk with hk | rfl
    · rw [hgr k hk]
      exact hs.session k hk
    · exact h.session
  · intro k hk
    rcases hcs k hk with hk | rfl
    · obtain ⟨hc, hgt⟩ := hs.registered k hk
      rw [hgr k hk, hcr]
      refine ⟨hc, ?_⟩
      rw [h.map _ (hs.created_lt hc), if_neg, hgt]
      rintro heq
      simp [heq, hfr] at hgt
    · rw [h.pgid, hcr]
      exact ⟨hp, by rw [h.map _ (hs.created_lt hp), if_pos rfl]⟩
  · intro i hi k hk
    rw [h.map i hi] at hk
    by_cases hip : i = p
    · obtain rfl : g = k := by simpa [hip] using hk
      rw [h.nextGroup, h.eq]
      exact ⟨Nat.lt_succ_self _, by rw [← h.eq, h.pgid, hip]⟩
    · rw [if_neg hip] at hk
      obtain ⟨hlt, hpg⟩ := hs.found i hi k hk
      rw [h.nextGroup, hgr k hlt]
      exact ⟨Nat.lt_succ_of_lt hlt, hpg⟩

theorem Registry.newSession (h : Registry s) (hp : Created s p)
    (hnw : comSysProcNewSessionNolock s p = some s') :
    comSysProcGetGroupByPgid s p = none ∧ ∃ g t, Made p g s t ∧ Moved p g t s' := by
  obtain ⟨⟨g, v⟩, hgr, hjn⟩ := bind_eq_some_iff.mp hnw
  cases hold : (s.proc p).procGroup with
  | none =>
    simp only [hold] at hgr
    have hfr := newGroup_isSome.mp (isSome_of_eq_some hgr)
    have hmd := h.newGroup hp (.inl (by simp)) hgr
    exact ⟨hfr, g, v, hmd, (hmd.registry h hp hfr).join hjn⟩
  | some old =>
    simp only [hold] at hgr
    have hne : old ≠ s.nextGroup := (h.member p old hold).2.1.ne
    obtain ⟨tree, htr, hmk⟩ := map_eq_some_iff.mp hgr
    cases hmk
    let t : State := { s with
      procGroupMap := tree
      group := Function.update s.group s.nextGroup ⟨p, some p, []⟩
      nextGroup := s.nextGroup + 1 }
    have hmd : Made p s.nextGroup s t :=
      h.newGroup hp (.inl (some_ne_none p)) (map_eq_some_iff.mpr ⟨tree, htr, rfl⟩)
    have hfr : comSysProcGetGroupByPgid s p = none :=
      put_isSome.mp (isSome_of_eq_some htr)
    refine ⟨hfr, s.nextGroup, t, hmd, ?_⟩
    have hpr : ((s.unlink old p).proc p).procGroup = some old := hold
    simp only [comSysProcJoinGroupNolock, hpr] at hjn
    split at hjn
    · cases hjn
    · cases hjn
      refine ⟨rfl, rfl, fun q => ?_, fun k => ?_⟩
      · by_cases hq : q = p <;> simp [enter, unlink, t, hq]
      · by_cases hk : k = s.nextGroup
        · subst hk
          simp [enter, unlink, t, hne.symm]
        · by_cases hko : k = old
          · -- Taken off once more, the list stays as it is.
            subst hko
            have hgn : p ∉ (s.group k).procs.erase p := (h.nodup k).not_mem_erase
            simp [enter, unlink, t, hk, erase_of_not_mem hgn]
          · have hou : p ∉ (s.group k).procs :=
              h.not_mem (by simpa [hold] using fun he => hko he.symm)
            simp [enter, unlink, t, hk, hko, erase_of_not_mem hou]

end ProcessGroups
