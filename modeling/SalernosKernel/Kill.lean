import SalernosKernel.ProcessGroupRegistry

/-! # `kill`

`com/sys/syscall/kill.c` over the process table. -/
namespace Kill

open ProcessTable ProcessReferences ProcessGroups RadixTree Option

structure Result where
  err : Option Errno
  sent : List ℕ
  state : State

def ValidSignal (sig : ℤ) : Prop := 0 < sig ∧ sig < 64
  deriving Decidable

def sendToProc (s : State) (p : ℕ) (sig : ℤ) : Option Errno × State :=
  if (s.proc p).signals.exited then (some .ESRCH, s)
  else (none, s.send p (Signals.ofNumber sig.toNat))

def comIpcSignalSendToProc (s : State) (pid sig : ℤ) : Result :=
  if ValidSignal sig then
    match comSysProcGetByPid s pid with
    | (none, s) => ⟨some .ESRCH, [], s⟩
    | (some p, s) => ⟨(sendToProc s p sig).1, [p], (sendToProc s p sig).2⟩
  else ⟨some .EINVAL, [], s⟩

def groupIndex (pgid : BitVec 32) : ℕ := (pgid.signExtend 64).toNat

def comIpcSignalSendToProcGroup (s : State) (pgid : BitVec 32) (sig : ℤ) : Result :=
  if ValidSignal sig then
    match comSysProcGetGroupByPgid s (groupIndex pgid) with
    | none => ⟨some .ESRCH, [], s⟩
    | some g => ⟨none, (s.group g).procs,
        (s.group g).procs.foldl (fun s p => (sendToProc s p sig).2) s⟩
  else ⟨some .EINVAL, [], s⟩

def killAt (s : State) (pid : BitVec 32) (sig : ℤ) : Result :=
  if pid = -1 then ⟨some .ENOSYS, [], s⟩
  else if sig = 0 then ⟨none, [], s⟩
  else if 0 < pid.toInt then comIpcSignalSendToProc s pid.toInt sig
  else comIpcSignalSendToProcGroup s (-pid) sig

/-- No result is an access through a null pointer: the caller has no group. -/
def comSysSyscallKill (s : State) (curr : ℕ) (pid : BitVec 32) (sig : ℤ) : Option Result :=
  if pid = 0 then
    (s.proc curr).procGroup.map fun g => killAt s (BitVec.ofNat 32 (s.group g).pgid) sig
  else some (killAt s pid sig)

def Target (s : State) (curr : ℕ) (pid : BitVec 32) (q : ℕ) : Prop :=
  if 0 < pid.toInt then pid.toInt = q ∧ Registered s q
  else if pid = 0 then ∃ n, InGroup s curr n ∧ InGroup s q n
  else ∃ n : ℕ, -pid.toInt = n ∧ InGroup s q n

/-- Each target gets the signal once and no other process does. -/
def Contract (s : State) (curr : ℕ) (pid : BitVec 32) (r : Result) : Prop :=
  r.sent.Nodup ∧ (∀ q, q ∈ r.sent ↔ Target s curr pid q) ∧
    ((∀ q, ¬ Target s curr pid q) → r.err = some .ESRCH)

/-- The caller is alone in a group of its own number; what is found for a negative number is that
group and has a member. -/
def Condition (s : State) (curr : ℕ) (pid : BitVec 32) : Prop :=
  (pid = 0 → ∀ n, InGroup s curr n → curr = n ∧ ∀ q, InGroup s q n → q = curr) ∧
    (pid.toInt < -1 → ∀ g, comSysProcGetGroupByPgid s (groupIndex (-pid)) = some g →
      ((s.group g).pgid : ℤ) = -pid.toInt ∧ (s.group g).procs ≠ [])

variable {s s' : State} {curr p q g n : ℕ} {pid : BitVec 32} {sig : ℤ}

theorem getGroup_congr {i j : ℕ} (h : i % 512 ^ 2 = j % 512 ^ 2) :
    comSysProcGetGroupByPgid s i = comSysProcGetGroupByPgid s j := by
  have hsp : splitIndex 1 i = splitIndex 1 j := splitIndex_eq_iff.mpr h
  simp only [comSysProcGetGroupByPgid, kradixtreeGetNolock, hsp]

theorem groupIndex_mod (h : -pid.toInt = n) (hng : pid.toInt < 0) :
    groupIndex (-pid) % 512 ^ 2 = n % 512 ^ 2 := by
  have hint := BitVec.toInt_eq_toNat_cond pid
  have hn : (-pid).toNat = n := by
    rw [BitVec.toNat_neg]
    split at hint <;> omega
  rw [groupIndex, BitVec.toNat_signExtend, BitVec.toNat_setWidth, hn]
  split <;> omega

theorem mem_procs_iff (h : Registry s) (hg : g < s.nextGroup) :
    q ∈ (s.group g).procs ↔ InGroup s q (s.group g).pgid := by
  constructor
  · intro hq
    exact ⟨g, h.only g q hq, hq, rfl⟩
  · rintro ⟨k, hk, hq, hpg⟩
    have hfn := (h.registered k (h.member q k hk).2.1).2
    rw [hpg, (h.registered g hg).2] at hfn
    exact some.inj hfn ▸ hq

theorem InGroup.get (h : Registry s) (hq : InGroup s q n) :
    ∃ g, comSysProcGetGroupByPgid s n = some g ∧ (s.group g).pgid = n ∧ q ∈ (s.group g).procs := by
  obtain ⟨g, hg, hme, rfl⟩ := hq
  exact ⟨g, (h.registered g (h.member q g hg).2.1).2, rfl, hme⟩

theorem sendToProc_same (s : State) (p : ℕ) (sig : ℤ) :
    SameFacts s (sendToProc s p sig).2 ∧ SameGroups s (sendToProc s p sig).2 := by
  unfold sendToProc
  split
  · exact ⟨.refl s, .refl s⟩
  · have hgroups : SameGroups s (s.send p (Signals.ofNumber sig.toNat)) :=
      sameGroups_modify fun _ => rfl
    exact ⟨sameFacts_send s p _, hgroups⟩

theorem sendToProc_spec (h : Registry s) (hsig : ValidSignal sig) (m : ℤ) :
    (∀ q, q ∈ (comIpcSignalSendToProc s m sig).sent ↔ m = q ∧ Registered s q) ∧
      (comIpcSignalSendToProc s m sig).sent.Nodup ∧
      ((comIpcSignalSendToProc s m sig).sent = [] →
        (comIpcSignalSendToProc s m sig).err = some .ESRCH) ∧
      Registry (comIpcSignalSendToProc s m sig).state := by
  simp only [comIpcSignalSendToProc, if_pos hsig, comSysProcGetByPid]
  have hfd : ∀ q, s.find m = some q ↔ m = q ∧ Registered s q := fun q => h.toIndexed.find
  cases hgt : s.find m with
  | none => exact ⟨fun q => by simp [← hfd q, hgt], List.nodup_nil, fun _ => rfl, h⟩
  | some p =>
    have hrf := ((hfd p).mp hgt).2.2
    have hsm := sendToProc_same (s.hold p) p sig
    refine ⟨fun q => ?_, List.nodup_singleton p, by simp, (h.hold hrf).of_same hsm.1 hsm.2⟩
    simp [← hfd q, hgt, eq_comm]

theorem sendToProcGroup_eq (hsig : ValidSignal sig) (pgid : BitVec 32) :
    (comIpcSignalSendToProcGroup s pgid sig).sent =
        ((comSysProcGetGroupByPgid s (groupIndex pgid)).map fun g => (s.group g).procs).getD [] ∧
      (comIpcSignalSendToProcGroup s pgid sig).err =
        (if comSysProcGetGroupByPgid s (groupIndex pgid) = none then some .ESRCH else none) := by
  simp only [comIpcSignalSendToProcGroup, if_pos hsig]
  cases comSysProcGetGroupByPgid s (groupIndex pgid) <;> simp

theorem contract_pos (h : Registry s) (hsig : ValidSignal sig) (hpid : 0 < pid.toInt) :
    Contract s curr pid (comIpcSignalSendToProc s pid.toInt sig) := by
  obtain ⟨hme, hnd, hem, -⟩ := sendToProc_spec h hsig pid.toInt
  have htr : ∀ q, Target s curr pid q ↔ pid.toInt = q ∧ Registered s q := by
    simp [Target, hpid]
  refine ⟨hnd, fun q => (hme q).trans (htr q).symm, fun hno => hem ?_⟩
  exact List.eq_nil_iff_forall_not_mem.mpr fun q hq => hno q ((htr q).mpr ((hme q).mp hq))

theorem contract_group_iff (h : Registry s) (hsig : ValidSignal sig) (hpid : pid.toInt < -1) :
    Contract s curr pid (comIpcSignalSendToProcGroup s (-pid) sig) ↔
      ∀ g, comSysProcGetGroupByPgid s (groupIndex (-pid)) = some g →
        ((s.group g).pgid : ℤ) = -pid.toInt ∧ (s.group g).procs ≠ [] := by
  obtain ⟨n, hn⟩ : ∃ n : ℕ, -pid.toInt = n := ⟨(-pid.toInt).toNat, by omega⟩
  have hz : pid ≠ 0 := by
    rintro rfl
    simp at hpid
  have htr : ∀ q, Target s curr pid q ↔ InGroup s q n := by
    intro q
    have hps : ¬ 0 < pid.toInt := by omega
    simp only [Target, if_neg hps, if_neg hz, hn, Nat.cast_inj, exists_eq_left']
  have hix : comSysProcGetGroupByPgid s (groupIndex (-pid)) = comSysProcGetGroupByPgid s n :=
    getGroup_congr (groupIndex_mod hn (by omega))
  obtain ⟨hsn, her⟩ := sendToProcGroup_eq (s := s) hsig (-pid)
  rw [Contract, hsn, her, hix]
  simp only [htr]
  cases hgt : comSysProcGetGroupByPgid s n with
  | none =>
    refine iff_of_true ⟨List.nodup_nil, fun q => ?_, fun _ => rfl⟩ (by simp)
    refine iff_of_false (by simp) fun hq => ?_
    obtain ⟨g, hg, -⟩ := InGroup.get h hq
    simp [hgt] at hg
  | some g =>
    have hme : ∀ q, q ∈ (s.group g).procs ↔ InGroup s q (s.group g).pgid :=
      fun q => mem_procs_iff h (h.get_group hgt).1
    simp only [map_some, getD_some, reduceCtorEq, if_false, imp_false,
      some.injEq, forall_eq', hn, Nat.cast_inj]
    constructor
    · rintro ⟨-, hsm, hso⟩
      obtain ⟨q, hq⟩ := not_forall_not.mp hso
      have hls := (hsm q).mpr hq
      obtain ⟨k, hk, -, hkn⟩ := hq
      have hgk := some.inj ((h.only g q hls).symm.trans hk)
      exact ⟨hgk ▸ hkn, List.ne_nil_of_mem hls⟩
    · rintro ⟨hpg, hne⟩
      obtain ⟨q, hq⟩ := List.exists_mem_of_ne_nil _ hne
      refine ⟨h.nodup g, fun q => hpg ▸ hme q, fun hno => hno q ?_⟩
      exact hpg ▸ (hme q).mp hq

theorem pgid_toInt (h : Registry s) (hg : g < s.nextGroup) :
    (BitVec.ofNat 32 (s.group g).pgid).toInt = (s.group g).pgid ∧ 0 < (s.group g).pgid := by
  have hcr := (h.registered g hg).1
  have hlt := h.toIndexed.created_lt hcr
  refine ⟨?_, hcr.1⟩
  rw [BitVec.toInt_eq_toNat_cond, BitVec.toNat_ofNat]
  split <;> omega

theorem contract_zero_iff (h : Registry s) (hsig : ValidSignal sig) (hrg : Registered s curr)
    (hg : (s.proc curr).procGroup = some g) :
    Contract s curr 0 (comIpcSignalSendToProc s (s.group g).pgid sig) ↔
      curr = (s.group g).pgid ∧ ∀ q, InGroup s q (s.group g).pgid → q = curr := by
  have hls := (h.member curr g hg).2.2
  have hcrr : InGroup s curr (s.group g).pgid := ⟨g, hg, hls, rfl⟩
  have htr : ∀ q, Target s curr 0 q ↔ InGroup s q (s.group g).pgid := by
    intro q
    constructor
    · rintro ⟨n, ⟨k, hk, -, rfl⟩, hq⟩
      rwa [some.inj (hg.symm.trans hk)]
    · exact fun hq => ⟨_, hcrr, hq⟩
  obtain ⟨hme, hnd, -, -⟩ := sendToProc_spec h hsig (s.group g).pgid
  simp only [Contract, htr, hme, Nat.cast_inj]
  constructor
  · rintro ⟨-, hsm, -⟩
    have how : (s.group g).pgid = curr := ((hsm curr).mpr hcrr).1
    exact ⟨how.symm, fun q hq => ((hsm q).mpr hq).1.symm.trans how⟩
  · rintro ⟨how, hon⟩
    refine ⟨hnd, fun q => ⟨fun hq => ?_, fun hq => ?_⟩, fun hno => absurd hcrr (hno curr)⟩
    · have hqc : q = curr := hq.1.symm.trans how.symm
      exact hqc ▸ hcrr
    · exact ⟨how.symm.trans (hon q hq).symm, hon q hq ▸ hrg⟩

theorem pid_eq_neg_one_iff : pid = -1 ↔ pid.toInt = -1 :=
  ⟨fun h => h ▸ by decide, fun h => BitVec.eq_of_toInt_eq (h.trans (by decide))⟩

theorem pid_eq_zero_iff : pid = 0 ↔ pid.toInt = 0 :=
  ⟨fun h => h ▸ by decide, fun h => BitVec.eq_of_toInt_eq (h.trans (by decide))⟩

theorem killAt_pos (hsig : ValidSignal sig) (hpid : 0 < pid.toInt) :
    killAt s pid sig = comIpcSignalSendToProc s pid.toInt sig := by
  have hoe : pid ≠ -1 := fun h => by rw [pid_eq_neg_one_iff] at h; omega
  have hz : sig ≠ 0 := hsig.1.ne'
  simp only [killAt, if_neg hoe, if_neg hz, if_pos hpid]

theorem killAt_neg (hsig : ValidSignal sig) (hpid : pid.toInt < -1) :
    killAt s pid sig = comIpcSignalSendToProcGroup s (-pid) sig := by
  have hoe : pid ≠ -1 := fun h => by rw [pid_eq_neg_one_iff] at h; omega
  have hz : sig ≠ 0 := hsig.1.ne'
  have hps : ¬ 0 < pid.toInt := by omega
  simp only [killAt, if_neg hoe, if_neg hz, if_neg hps]

/-- `kill(pid, sig)` by a process that runs. -/
theorem kill_contract (s : State) (curr : ℕ) (pid : BitVec 32) (sig : ℤ) (h : Registry s)
    (hcurr : Live s curr) (hpid : pid ≠ -1) (hsig : ValidSignal sig) :
    (∃ r, comSysSyscallKill s curr pid sig = some r ∧ Contract s curr pid r) ↔
      Condition s curr pid := by
  have hrg := hcurr.registered h
  obtain ⟨g, hg⟩ := ne_none_iff_exists'.mp (h.grouped curr hrg.1 hrg.2)
  have hls := h.member curr g hg
  rw [ne_eq, pid_eq_neg_one_iff] at hpid
  rcases lt_trichotomy pid.toInt 0 with hng | hz | hps
  · have hlt : pid.toInt < -1 := by omega
    have hne : pid ≠ 0 := fun h0 => by rw [pid_eq_zero_iff] at h0; omega
    simp only [comSysSyscallKill, hne, if_false, some.injEq, exists_eq_left', killAt_neg hsig hlt,
      contract_group_iff h hsig hlt, Condition, hlt, true_imp_iff, false_imp_iff, true_and]
  · obtain rfl := pid_eq_zero_iff.mpr hz
    obtain ⟨hint, hgp⟩ := pgid_toInt h hls.2.1
    have hat : killAt s (BitVec.ofNat 32 (s.group g).pgid) sig = comIpcSignalSendToProc s
        (BitVec.ofNat 32 (s.group g).pgid).toInt sig := killAt_pos hsig (by omega)
    have hnt : ¬ (0 : BitVec 32).toInt < -1 := by decide
    have hgr : ∀ n, InGroup s curr n ↔ n = (s.group g).pgid := by
      intro n
      constructor
      · rintro ⟨k, hk, -, rfl⟩
        rw [some.inj (hg.symm.trans hk)]
      · rintro rfl
        exact ⟨g, hg, hls.2.2, rfl⟩
    simp only [comSysSyscallKill, if_true, hg, map_some, some.injEq,
      exists_eq_left', hat, hint, contract_zero_iff h hsig hrg hg, Condition, hgr, forall_eq,
      true_imp_iff, hnt, false_imp_iff, and_true]
  · have hne : pid ≠ 0 := fun h0 => by rw [pid_eq_zero_iff] at h0; omega
    have hnt : ¬ pid.toInt < -1 := by omega
    simp only [comSysSyscallKill, hne, if_false, some.injEq, exists_eq_left',
      killAt_pos hsig hps, contract_pos h hsig hps, Condition, hnt, false_imp_iff, and_self]

/-- The child of process 1 has a session of its own. -/
theorem kill_contract_session : ∃ s, Reached s ∧ Live s 1 ∧ Live s 2 ∧
    ∃ r, comSysSyscallKill s 2 0 15 = some r ∧ Contract s 2 0 r := by
  obtain ⟨s, hs, hone, hlv, hgr, hpg, hpr⟩ : ∃ s, Reached s ∧ Live s 1 ∧ Live s 2 ∧
      (s.proc 2).procGroup = some 1 ∧ (s.group 1).pgid = 2 ∧ (s.group 1).procs = [2] :=
    ⟨_, ⟨fun _ => none, _, rfl, .step (.step .start (e := .fork 1 fun _ => none)
        ⟨⟨by decide, by decide⟩, rfl⟩ rfl) (e := .setsid 2) ⟨⟨by decide, by decide⟩, rfl⟩ rfl⟩,
      ⟨⟨by decide, by decide⟩, rfl⟩, ⟨⟨by decide, by decide⟩, rfl⟩, rfl, rfl, rfl⟩
  have hrg := hs.registry
  refine ⟨s, hs, hone, hlv, (kill_contract s 2 0 15 hrg hlv (by decide) (by decide)).mpr ?_⟩
  refine ⟨fun _ n hn => ?_, fun hlt => absurd hlt (by decide)⟩
  obtain ⟨k, hk, -, rfl⟩ := hn
  obtain rfl := some.inj (hgr.symm.trans hk)
  refine ⟨hpg.symm, fun q hq => ?_⟩
  have hme := (mem_procs_iff hrg (hrg.member 2 1 hgr).2.1).mpr hq
  simpa [hpr] using hme

/-- Process 1 and its child 2 are in group 1. What the child sends to its group reaches process 1
only, and what it sends to group 2 ^ 18 + 1, which does not exist, reaches both. -/
theorem kill_wrong_targets : ∃ s, Reached s ∧ Live s 2 ∧
    (∃ r, comSysSyscallKill s 2 0 15 = some r ∧ r.sent = [1] ∧ Target s 2 0 2) ∧
    ∃ r, comSysSyscallKill s 2 (-262145) 15 = some r ∧ r.sent = [1, 2] ∧
      ¬ Target s 2 (-262145) 1 := by
  obtain ⟨s, hs, hlv, hgr, hpg, hpr, hz, hfr⟩ : ∃ s, Reached s ∧ Live s 2 ∧
      (s.proc 2).procGroup = some 0 ∧ (s.group 0).pgid = 1 ∧ (s.group 0).procs = [1, 2] ∧
      (∃ r, comSysSyscallKill s 2 0 15 = some r ∧ r.sent = [1]) ∧
      ∃ r, comSysSyscallKill s 2 (-262145) 15 = some r ∧ r.sent = [1, 2] :=
    ⟨_, ⟨fun _ => none, _, rfl, .step .start (e := .fork 1 fun _ => none)
        ⟨⟨by decide, by decide⟩, rfl⟩ rfl⟩, ⟨⟨by decide, by decide⟩, rfl⟩, rfl, rfl, rfl,
      ⟨_, rfl, rfl⟩, ⟨_, rfl, rfl⟩⟩
  have hrg := hs.registry
  have hin : InGroup s 2 1 := ⟨0, hgr, by simp [hpr], hpg⟩
  have hoe : InGroup s 1 1 := ⟨0, hrg.only 0 1 (by simp [hpr]), by simp [hpr], hpg⟩
  obtain ⟨r, hr, hsn⟩ := hz
  obtain ⟨r', hr', hsn'⟩ := hfr
  refine ⟨s, hs, hlv, ⟨r, hr, hsn, ⟨1, hin, hin⟩⟩, r', hr', hsn', ?_⟩
  rintro ⟨n, hn, k, hk, -, rfl⟩
  obtain ⟨k', hk', -, hk1⟩ := hoe
  rw [some.inj (hk.symm.trans hk'), hk1] at hn
  exact absurd hn (by decide)

end Kill
