import SalernosKernel.Kill
import SalernosKernel.WaitPid

/-! # Reference counts of processes

What `fork`, new threads, signals, `setpgid`, `exit` and `waitpid` do to `num_ref`, where processes
have any number of threads and several of them may wait at once. A process is owed a reference for
its parent until it is reaped, one for each thread, and one for each call that waits for it. -/
namespace ProcessReferenceCounts

open ProcessTable hiding State
open ProcessReferences Option ProcessGroups
open WaitPid (Outcome waitpidRound)
open Function

abbrev Table := ProcessTable.State

structure Wait where
  caller : ℕ
  thread : ℕ
  flags : BitVec 32
  towait : ℕ
  deriving DecidableEq

structure State where
  table : Table
  waits : List Wait
  /-- Threads that were added. `com_sys_thread_destroy`, which drops their references, is not
  called. -/
  threads : ℕ → ℕ
  reaped : ℕ → Bool

/-- `COM_SYS_PROC_RELEASE`; a run ends where the count would pass below zero. -/
def drop (t : Table) (p : ℕ) : Option Table :=
  if (t.proc p).numRef = 0 then none else t.release p

def waitpidProc (s : State) (w : Wait) : Option (Outcome × State) :=
  ((s.table.proc w.caller).signals.threads[w.thread]?).bind fun caller =>
    match waitpidRound caller (s.table.proc w.towait) w.flags with
    | (.interrupted, _) =>
      (drop s.table w.towait).map fun table => (.error .EINTR, { s with table := table })
    | (.exited status, _) =>
      ((drop s.table w.towait).bind fun table => drop table w.towait).map fun table =>
        (.ok w.towait (some status),
          { s with table := table, reaped := update s.reaped w.towait true })
    | (.stopped status, towait) =>
      (drop (s.table.modify w.towait fun _ => towait) w.towait).map fun table =>
        (.ok w.towait (some status), { s with table := table })
    | (.nohang, _) =>
      (drop s.table w.towait).map fun table => (.ok 0 none, { s with table := table })
    | (.wait, _) =>
      some (.blocked, { s with
        table := s.table.modify w.caller fun proc => { proc with
          signals := proc.signals.modifyThread w.thread fun t =>
            { t with activity := .waiting .other } }
        waits := s.waits ++ [w] })

def comSysSyscallWaitpid (s : State) (p thread : ℕ) (stale : ℕ → Option ℕ) (pid : ℤ)
    (flags : BitVec 32) : Option (Outcome × State) :=
  if pid < -1 then some (.error .ENOSYS, s)
  else
    match if pid = -1 then comSysProcGetArbitraryChild s.table stale p
      else comSysProcGetByPid s.table pid with
    | (none, table) => some (.error .ECHILD, { s with table := table })
    | (some towait, table) =>
      if (table.proc p).numChildren = 0 ∨ (table.proc towait).parentPid ≠ p then
        (drop table towait).map fun table => (.error .ECHILD, { s with table := table })
      else waitpidProc { s with table := table } ⟨p, thread, flags, towait⟩

inductive Event where
  | fork (p : ℕ) (memory : Signals.Signal → Option Signals.Sigaction)
  | thread (p : ℕ)
  | send (pid sig : ℤ)
  | setpgid (p : ℕ) (pid pgid : ℤ)
  | exit (p : ℕ) (status : ℤ) (waiters : List ℕ)
  | waitpid (p thread : ℕ) (stale : ℕ → Option ℕ) (pid : ℤ) (flags : BitVec 32)
  | resume (i : ℕ)

/-- What `candidate` holds in `com_sys_proc_get_arbitrary_child` is no wild pointer. -/
def Enabled (s : State) : Event → Prop
  | .fork p _ | .thread p | .setpgid p _ _ | .exit p _ _ => Live s.table p
  | .send _ _ => True
  | .waitpid p thread stale _ _ => Live s.table p ∧
      (∀ w ∈ s.waits, ¬ (w.caller = p ∧ w.thread = thread)) ∧
      ∀ i c, stale i = some c → Created s.table c
  | .resume i => i < s.waits.length

def next (s : State) : Event → Option State
  | .fork p memory => (comSysSyscallFork s.table p memory).map fun made =>
      { s with table := made.2, threads := update s.threads made.1 1 }
  | .thread p => some { s with
      table := s.table.addThread p
      threads := update s.threads p (s.threads p + 1) }
  | .send pid sig => some { s with table := (Kill.comIpcSignalSendToProc s.table pid sig).state }
  | .setpgid p pid pgid => (comSysSyscallSetpgid s.table p pid pgid).map fun r =>
      { s with table := r.2 }
  | .exit p status waiters => some { s with table := comSysProcExit s.table p status waiters }
  | .waitpid p thread stale pid flags =>
      (comSysSyscallWaitpid s p thread stale pid flags).map Prod.snd
  | .resume i => (s.waits[i]?).bind fun w =>
      (waitpidProc { s with waits := s.waits.eraseIdx i } w).map Prod.snd

def initial (table : Table) : State :=
  ⟨table, [], fun p => if p = 1 then 1 else 0, fun _ => false⟩

def waiting (s : State) (c : ℕ) : ℕ := s.waits.countP fun w => w.towait = c

def owed (s : State) (c : ℕ) : ℕ := (if s.reaped c then 0 else 1) + s.threads c + waiting s c

def surplus (s : State) (c : ℕ) : ℤ := (facts s.table c).numRef - owed s c

def ReapsAgain (s : State) (p thread c : ℕ) : Prop :=
  s.reaped c = true ∧ (facts s.table c).exited = true ∧
    ∃ t, (s.table.proc p).signals.threads[thread]? = some t ∧
      Signals.comIpcSignalCheckNolock t = none

def LooksUpItself (t : Table) (p : ℕ) (pid pgid : ℤ) : Prop :=
  pid = p ∧ 0 ≤ pgid ∧ ∃ g, (t.proc p).procGroup = some g ∧
    (if pgid = 0 then p else pgid.toNat) ≠ (t.group g).pgid ∧ (t.group g).session ≠ some p

def Condition (s : State) : Event → Prop
  | .fork _ _ | .thread _ => True
  | .send pid sig => Kill.ValidSignal sig → s.table.find pid = none
  | .setpgid p pid pgid => ¬ LooksUpItself s.table p pid pgid
  | .exit p _ _ => s.table.find (s.table.proc p).parentPid = none
  | .waitpid p thread _ pid _ => ∀ c : ℕ, pid = c → Created s.table c →
      (facts s.table c).numRef ≠ 0 → (facts s.table p).numChildren ≠ 0 →
      (facts s.table c).parentPid = p → ¬ ReapsAgain s p thread c
  | .resume i => ∀ w, s.waits[i]? = some w → ¬ ReapsAgain s w.caller w.thread w.towait

/-- What every run keeps. References are leaked to any process, but only one that has exited can
lose one that it is owed. -/
structure Invariant (s : State) : Prop where
  indexed : Indexed s.table
  towait : ∀ w ∈ s.waits, Created s.table w.towait
  fresh : ∀ c, s.table.nextPid ≤ c → s.reaped c = false ∧ s.threads c = 0
  live : ∀ c, Created s.table c → (facts s.table c).exited = false →
    s.reaped c = false ∧ 0 ≤ surplus s c

def single (p q : ℕ) : ℕ := if p = q then 1 else 0

structure Gains (gain : ℕ → ℕ) (t t' : Table) : Prop where
  indexed : Indexed t'
  nextPid : t'.nextPid = t.nextPid
  numRef : ∀ q, (facts t' q).numRef = (facts t q).numRef + gain q
  exited : ∀ q, (facts t' q).exited = false → (facts t q).exited = false

section Tables

variable {t t' u : Table} {p q : ℕ} {pid pgid sig : ℤ} {gain : ℕ → ℕ}

theorem Gains.same (h : SameFacts t t') (ht : Indexed t) : Gains (fun _ => 0) t t' :=
  ⟨h.indexed ht, h.nextPid, fun q => by simp [h.facts], fun q => by simp [h.facts]⟩

theorem Gains.trans_same (h : Gains gain t t') (h' : SameFacts t' u) : Gains gain t u :=
  ⟨h'.indexed h.indexed, h'.nextPid.trans h.nextPid, fun q => by rw [h'.facts, h.numRef],
    fun q hq => h.exited q (by rwa [h'.facts] at hq)⟩

theorem Gains.hold (ht : Indexed t) (hp : (facts t p).numRef ≠ 0) :
    Gains (single p) t (t.hold p) := by
  have hfc := (changed_hold t p).facts
  refine ⟨ht.hold hp, rfl, fun q => ?_, fun q => ?_⟩
  · rw [hfc]
    by_cases hq : q = p
    · simp [hq, single, Facts.hold]
    · simp [hq, Ne.symm hq, single]
  · rw [hfc]
    by_cases hq : q = p <;> simp [hq, Facts.hold]

theorem Gains.addThread (ht : Indexed t) (hp : (facts t p).numRef ≠ 0) :
    Gains (single p) t (t.addThread p) :=
  (Gains.hold ht hp).trans_same (sameFacts_modify fun _ => ⟨rfl, rfl, rfl, rfl⟩)

theorem Gains.send (ht : Indexed t) (pid sig : ℤ) :
    Gains (fun q => if Kill.ValidSignal sig ∧ t.find pid = some q then 1 else 0) t
      (Kill.comIpcSignalSendToProc t pid sig).state := by
  unfold Kill.comIpcSignalSendToProc
  split
  · next hsg =>
    unfold comSysProcGetByPid
    cases hfd : t.find pid with
    | none => simpa [hsg] using Gains.same (SameFacts.refl t) ht
    | some p =>
      have hhd := Gains.hold ht (ht.find.mp hfd).2.2
      have hsn := hhd.trans_same (Kill.sendToProc_same (t.hold p) p sig).1
      simp only [hsg, true_and, some.injEq]
      exact hsn
  · next hsg => simpa [hsg] using Gains.same (SameFacts.refl t) ht

theorem Gains.sendToPid (ht : Indexed t) (pid : ℤ) (sig : Signals.Signal) :
    Gains (fun q => if t.find pid = some q then 1 else 0) t (t.sendToPid pid sig) := by
  unfold State.sendToPid comSysProcGetByPid
  cases hfd : t.find pid with
  | none => simpa using Gains.same (SameFacts.refl t) ht
  | some p =>
    have hhd := Gains.hold ht (ht.find.mp hfd).2.2
    simp only [some.injEq]
    exact hhd.trans_same (sameFacts_send (t.hold p) p sig)

theorem Gains.exit (ht : Indexed t) (p : ℕ) (status : ℤ) (waiters : List ℕ) :
    Gains (fun q => if t.find (t.proc p).parentPid = some q then 1 else 0) t
      (comSysProcExit t p status waiters) := by
  let t₁ := t.modify p fun proc => { proc with
    exitStatus := status
    signals := { proc.signals with exited := true } }
  have h₁ : Changed p (fun x => { x with exited := true }) t t₁ := changed_modify (by simp [facts])
  have h₂ := sameFacts_notifyAll t₁ waiters
  have hpr : (t₁.proc p).parentPid = (t.proc p).parentPid := by simp [t₁]
  have hfd : ∀ m, (t₁.notifyAll waiters).find m = t.find m := fun m => by
    simp only [State.find, h₂.processes, t₁, State.modify_processes]
  have h₃ := Gains.sendToPid (h₂.indexed (h₁.indexed ht rfl Iff.rfl)) (t₁.proc p).parentPid
    Signals.SIGCHLD
  have h₄ : SameFacts ((t₁.notifyAll waiters).sendToPid (t₁.proc p).parentPid Signals.SIGCHLD)
      (comSysProcExit t p status waiters) := by
    unfold comSysProcExit
    exact sameFacts_modify fun _ => ⟨rfl, rfl, rfl, rfl⟩
  simp only [hfd, hpr] at h₃ h₄
  refine ⟨h₄.indexed h₃.indexed, h₄.nextPid.trans (h₃.nextPid.trans h₂.nextPid), fun q => ?_,
    fun q hq => ?_⟩
  · rw [h₄.facts, h₃.numRef, h₂.facts, h₁.facts]
    by_cases hq : q = p <;> simp [hq]
  · rw [h₄.facts] at hq
    have hbf := h₃.exited q hq
    rw [h₂.facts, h₁.facts] at hbf
    by_cases hqp : q = p
    · simp [hqp] at hbf
    · simpa [hqp] using hbf

variable {r : Except Errno Unit} {asked : ℕ}

theorem sameFacts_moveTo (h : moveTo t p asked = some (r, t')) : SameFacts t t' := by
  unfold moveTo at h
  split at h
  · cases h
    exact SameFacts.refl t
  · obtain ⟨⟨g, u⟩, hfn, h⟩ := bind_eq_some_iff.mp h
    obtain ⟨v, hjn, h⟩ := map_eq_some_iff.mp h
    cases h
    refine SameFacts.trans ?_ (sameFacts_join hjn)
    split at hfn
    · cases hfn
      exact SameFacts.refl t
    · exact sameFacts_newGroup hfn

theorem gains_setpgidOf (ht : Indexed t) (hq : Created t q) (hrf : (facts t q).numRef ≠ 0)
    (h : setpgidOf (t.hold q) p q asked = some (r, t')) :
    Gains (if q = p then single p else fun _ => 0) t t' := by
  have hhd := Gains.hold ht hrf
  unfold setpgidOf at h
  by_cases hsl : q = p
  · have hmv : moveTo (t.hold q) q asked = some (r, t') := by simpa [hsl] using h
    rw [if_pos hsl, ← hsl]
    exact hhd.trans_same (sameFacts_moveTo hmv)
  · rw [if_neg hsl] at h ⊢
    obtain ⟨⟨r', u⟩, hrs, h⟩ := bind_eq_some_iff.mp h
    obtain ⟨v, hrl, h⟩ := map_eq_some_iff.mp h
    obtain ⟨-, rfl⟩ := Prod.mk.inj h
    have hsm : SameFacts (t.hold q) u := by
      split at hrs
      · obtain ⟨-, rfl⟩ := Prod.mk.inj (some.inj hrs)
        exact SameFacts.refl _
      · exact sameFacts_moveTo hrs
    have hu := hhd.trans_same hsm
    have hct : (facts u q).numRef = (facts t q).numRef + 1 := by simp [hu.numRef, single]
    obtain ⟨w, hw, hin, hch⟩ :=
      hu.indexed.release ((created_iff hu.nextPid).mpr hq) (by omega)
    obtain rfl : w = v := some.inj (hw.symm.trans hrl)
    refine ⟨hin, hch.nextPid.trans hu.nextPid, fun c => ?_, fun c hc => ?_⟩
    · rw [hch.facts]
      by_cases hcq : c = q
      · simp [hcq, Facts.release, hct]
      · simp [hcq, hu.numRef, single, Ne.symm hcq]
    · rw [hch.facts] at hc
      refine hu.exited c ?_
      by_cases hcq : c = q
      · simpa [hcq, Facts.release] using hc
      · simpa [hcq] using hc

theorem gains_setpgid (ht : Indexed t) (hp : Created t p)
    (h : comSysSyscallSetpgid t p pid pgid = some (r, t')) :
    (LooksUpItself t p pid pgid → Gains (single p) t t') ∧
      (¬ LooksUpItself t p pid pgid → Gains (fun _ => 0) t t') := by
  have hps := hp.1
  have hsm : Gains (fun _ => 0) t t := Gains.same (SameFacts.refl t) ht
  unfold comSysSyscallSetpgid at h
  unfold LooksUpItself
  generalize (if pgid = 0 then p else pgid.toNat) = asked at h ⊢
  split at h
  · next hng =>
    cases h
    refine ⟨?_, fun _ => hsm⟩
    rintro ⟨hpd, hpg, -⟩
    omega
  · next hng =>
    obtain ⟨g, hg, h⟩ := bind_eq_some_iff.mp h
    simp only [hg, some.injEq, exists_eq_left']
    dsimp only at h
    split at h
    · next heq =>
      cases h
      exact ⟨fun hsl => absurd heq hsl.2.2.1, fun _ => hsm⟩
    · next hne =>
      obtain ⟨sid, hsd, h⟩ := bind_eq_some_iff.mp h
      split at h
      · next hld =>
        cases h
        exact ⟨fun hsl => absurd (hld ▸ hsd) hsl.2.2.2, fun _ => hsm⟩
      · next hld =>
        split at h
        · next hz =>
          refine ⟨fun hsl => ?_, fun _ => Gains.same (sameFacts_moveTo h) ht⟩
          omega
        · next hnn =>
          unfold comSysProcGetByPid at h
          cases hfd : t.find pid with
          | none => simp [hfd] at h
          | some q =>
            obtain ⟨hpd, hq, hrf⟩ := ht.find.mp hfd
            simp only [hfd] at h
            have hgn := gains_setpgidOf ht hq hrf h
            have hss : (t.group g).session ≠ some p := fun hs =>
              hld (some.inj (hs.symm.trans hsd))
            constructor
            · intro hsl
              have hqp : q = p := by
                omega
              rwa [if_pos hqp] at hgn
            · intro hot
              have hqp : q ≠ p := fun hqp =>
                hot ⟨by rw [hpd, hqp], by omega, hne, hss⟩
              rwa [if_neg hqp] at hgn

structure Loses (p : ℕ) (t t' : Table) : Prop where
  indexed : Indexed t'
  nextPid : t'.nextPid = t.nextPid
  numRef : ∀ q, (facts t' q).numRef + single p q = (facts t q).numRef
  exited : ∀ q, (facts t' q).exited = (facts t q).exited

theorem drop_loses (ht : Indexed t) (hp : Created t p) (h : drop t p = some t') : Loses p t t' := by
  unfold drop at h
  split at h
  · cases h
  · next hrf =>
    obtain ⟨u, hu, hin, hch⟩ := ht.release hp hrf
    obtain rfl : u = t' := some.inj (hu.symm.trans h)
    have hct : (facts t p).numRef ≠ 0 := hrf
    refine ⟨hin, hch.nextPid, fun q => ?_, fun q => ?_⟩
    · rw [hch.facts]
      by_cases hq : q = p
      · simp only [hq, if_true, Facts.release, single]
        omega
      · simp [hq, Ne.symm hq, single]
    · rw [hch.facts]
      by_cases hq : q = p <;> simp [hq, Facts.release]

end Tables

section Steps

variable {s s' : State} {t t' : Table} {p c : ℕ} {gain : ℕ → ℕ} {w : Wait} {o : Outcome}

theorem surplus_gains (h : Gains gain s.table t') (c : ℕ) :
    surplus { s with table := t' } c = surplus s c + gain c := by
  simp only [surplus, owed, waiting, h.numRef]
  omega

theorem Invariant.gains (hs : Invariant s) (h : Gains gain s.table t') :
    Invariant { s with table := t' } := by
  have hcr : ∀ q, Created t' q ↔ Created s.table q := fun _ => created_iff h.nextPid
  refine ⟨h.indexed, fun w hw => (hcr _).mpr (hs.towait w hw), fun q hq => ?_, fun q hq hx => ?_⟩
  · exact hs.fresh q (h.nextPid ▸ hq)
  · obtain ⟨hrp, hle⟩ := hs.live q ((hcr q).mp hq) (h.exited q hx)
    refine ⟨hrp, ?_⟩
    rw [surplus_gains h]
    omega

theorem Invariant.numRef_ne_zero (hs : Invariant s) (hc : Created s.table c)
    (hx : (facts s.table c).exited = false) : (facts s.table c).numRef ≠ 0 := by
  obtain ⟨hrp, hle⟩ := hs.live c hc hx
  simp only [surplus, owed, hrp] at hle
  simp only [Bool.false_eq_true, if_false] at hle
  omega

structure Ends (w : Wait) (k : ℕ) (s s' : State) : Prop where
  invariant : Invariant s'
  nextPid : s'.table.nextPid = s.table.nextPid
  loss : ∀ c, surplus s' c = surplus s c - (1 + k : ℕ) * single w.towait c

theorem Ends.of_surplus {waits : List Wait} (hs : Invariant s)
    (hlv : (facts s.table w.towait).exited = false → 1 ≤ surplus s w.towait)
    (hin : Indexed t') (hwt : ∀ v ∈ waits, Created s.table v.towait)
    (hnx : t'.nextPid = s.table.nextPid)
    (het : ∀ q, (facts t' q).exited = (facts s.table q).exited)
    (hsr : ∀ c, surplus { s with table := t', waits := waits } c =
      surplus s c - single w.towait c) :
    Ends w 0 s { s with table := t', waits := waits } := by
  have hcr : ∀ q, Created t' q ↔ Created s.table q := fun _ => created_iff hnx
  refine ⟨⟨hin, fun v hv => (hcr _).mpr (hwt v hv), fun q hq => ?_,
    fun q hq hx => ?_⟩, hnx, fun c => by simpa using hsr c⟩
  · exact hs.fresh q (hnx ▸ hq)
  · rw [het] at hx
    obtain ⟨hrp, hle⟩ := hs.live q ((hcr q).mp hq) hx
    refine ⟨hrp, ?_⟩
    rw [hsr]
    by_cases hqw : w.towait = q
    · have hon := hlv (hqw ▸ hx)
      rw [← hqw]
      simp only [single, if_true]
      omega
    · simp only [single, if_neg hqw]
      omega

theorem Ends.of_loses (hs : Invariant s) (hlv : (facts s.table w.towait).exited = false →
    1 ≤ surplus s w.towait) (h : Loses w.towait s.table t') :
    Ends w 0 s { s with table := t' } := by
  refine .of_surplus hs hlv h.indexed hs.towait h.nextPid h.exited fun c => ?_
  have hct := h.numRef c
  simp only [surplus, owed, waiting]
  omega

theorem Ends.congr {s₀ : State} {k : ℕ} (h : Ends w k s s') (hnx : s.table.nextPid = s₀.table.nextPid)
    (hsr : ∀ c, surplus s c = surplus s₀ c) :
    Ends w k s₀ s' :=
  ⟨h.invariant, h.nextPid.trans hnx, fun c => (h.loss c).trans (by rw [hsr])⟩

theorem Ends.of_exited (hs : Invariant s) (hw : Created s.table w.towait)
    (hx : (facts s.table w.towait).exited = true)
    (h₁ : Loses w.towait s.table t) (h₂ : Loses w.towait t t') :
    Ends w (if s.reaped w.towait then 1 else 0) s
      { s with table := t', reaped := update s.reaped w.towait true } := by
  have hnx := h₂.nextPid.trans h₁.nextPid
  have hcr : ∀ q, Created t' q ↔ Created s.table q := fun _ => created_iff hnx
  have het : ∀ q, (facts t' q).exited = (facts s.table q).exited := fun q =>
    (h₂.exited q).trans (h₁.exited q)
  have hsr : ∀ c, surplus
      { s with table := t', reaped := update s.reaped w.towait true } c =
      surplus s c -
        (1 + (if s.reaped w.towait then 1 else 0) : ℕ) * single w.towait c := by
    intro c
    have hct₁ := h₁.numRef c
    have hct₂ := h₂.numRef c
    by_cases hc : w.towait = c
    · subst hc
      simp only [single, if_true] at hct₁ hct₂
      simp only [surplus, owed, waiting, update_self, single, if_true]
      split <;> omega
    · simp only [single, if_neg hc] at hct₁ hct₂
      simp only [surplus, owed, waiting, single, if_neg hc,
        update_of_ne (Ne.symm hc)]
      omega
  refine ⟨⟨h₂.indexed, fun v hv => (hcr _).mpr (hs.towait v hv), fun q hq => ?_,
    fun q hq hlv => ?_⟩, hnx, hsr⟩
  · obtain ⟨hrp, hth⟩ := hs.fresh q (hnx ▸ hq)
    have hne : q ≠ w.towait := fun he => by
      have hlt := hw.2
      have hle : s.table.nextPid ≤ q := hnx ▸ hq
      omega
    exact ⟨by simpa [update_of_ne hne] using hrp, hth⟩
  · rw [het] at hlv
    have hne : q ≠ w.towait := fun he => by simp [he, hx] at hlv
    obtain ⟨hrp, hle⟩ := hs.live q ((hcr q).mp hq) hlv
    refine ⟨by simpa [update_of_ne hne] using hrp, ?_⟩
    rw [hsr]
    simpa [single, Ne.symm hne] using hle

theorem Ends.of_wait (hs : Invariant s) (hw : Created s.table w.towait)
    (hlv : (facts s.table w.towait).exited = false →
      1 ≤ surplus s w.towait) (h : SameFacts s.table t') :
    Ends w 0 s { s with table := t', waits := s.waits ++ [w] } := by
  refine .of_surplus hs hlv (h.indexed hs.indexed) (fun v hv => ?_) h.nextPid
    (fun q => by rw [h.facts]) fun c => ?_
  · rcases List.mem_append.mp hv with hv | hv
    · exact hs.towait v hv
    · rw [List.mem_singleton.mp hv]
      exact hw
  · simp only [surplus, owed, waiting, h.facts, List.countP_append,
      List.countP_singleton, single, decide_eq_true_eq]
    omega

theorem waitpidProc_ends (hs : Invariant s) (hw : Created s.table w.towait)
    (hlv : (facts s.table w.towait).exited = false →
      1 ≤ surplus s w.towait) (h : waitpidProc s w = some (o, s')) :
    ∃ k, Ends w k s s' ∧ (k = 0 ↔ ¬ ReapsAgain s w.caller w.thread w.towait) := by
  obtain ⟨caller, hcll, h⟩ := bind_eq_some_iff.mp h
  have hfn := WaitPid.found_round caller (s.table.proc w.towait) w.flags
  generalize waitpidRound caller (s.table.proc w.towait) w.flags = r at hfn h
  obtain ⟨round, towait⟩ := r
  have hnot : (s.table.proc w.towait).signals.exited = false →
      ¬ ReapsAgain s w.caller w.thread w.towait := fun hx ha => by
    have het : (s.table.proc w.towait).signals.exited = true := ha.2.1
    simp [hx] at het
  cases hfn with
  | interrupted hcc =>
    obtain ⟨t', hdr, h⟩ := map_eq_some_iff.mp h
    cases h
    refine ⟨0, .of_loses hs hlv (drop_loses hs.indexed hw hdr), iff_of_true rfl ?_⟩
    rintro ⟨-, -, t, ht, hno⟩
    obtain rfl := some.inj (hcll.symm.trans ht)
    simp [hno] at hcc
  | exited status hcc hx =>
    obtain ⟨t', hdp, h⟩ := map_eq_some_iff.mp h
    obtain ⟨t, hfs, hsc⟩ := bind_eq_some_iff.mp hdp
    cases h
    have h₁ := drop_loses hs.indexed hw hfs
    have h₂ := drop_loses h₁.indexed ((created_iff h₁.nextPid).mpr hw) hsc
    refine ⟨_, .of_exited hs hw hx h₁ h₂, ?_⟩
    have hag : ReapsAgain s w.caller w.thread w.towait ↔ s.reaped w.towait = true :=
      ⟨fun ha => ha.1, fun hr => ⟨hr, hx, caller, hcll, not_isSome_iff_eq_none.mp hcc⟩⟩
    split <;> simp_all
  | nohang hx =>
    obtain ⟨t', hdr, h⟩ := map_eq_some_iff.mp h
    cases h
    exact ⟨0, .of_loses hs hlv (drop_loses hs.indexed hw hdr), iff_of_true rfl (hnot hx)⟩
  | wait hx =>
    cases h
    refine ⟨0, .of_wait hs hw hlv ?_, iff_of_true rfl (hnot hx)⟩
    exact sameFacts_modify fun _ => ⟨rfl, rfl, rfl, rfl⟩
  | stopped status hx =>
    obtain ⟨t', hdr, h⟩ := map_eq_some_iff.mp h
    cases h
    have hsm := sameFacts_notified (s := s.table) (c := w.towait)
    have hnt := hs.gains (Gains.same hsm hs.indexed)
    have hz := fun c => surplus_gains (s := s) (Gains.same hsm hs.indexed) c
    have hed := Ends.of_loses (w := w) hnt (fun hx' => ?_)
      (drop_loses hnt.indexed ((created_iff hsm.nextPid).mpr hw) hdr)
    · exact ⟨0, hed.congr rfl fun c => by simpa using hz c, iff_of_true rfl (hnot hx)⟩
    · rw [hz]
      simpa using hlv ((hsm.facts w.towait) ▸ hx')

structure Held (c : ℕ) (s s' : State) : Prop where
  invariant : Invariant s'
  nextPid : s'.table.nextPid = s.table.nextPid
  surplus : ∀ q, surplus s' q = surplus s q + single c q
  reaped : s'.reaped = s.reaped
  signals : ∀ q, (s'.table.proc q).signals = (s.table.proc q).signals

theorem held_hold (hs : Invariant s) (hrf : (facts s.table c).numRef ≠ 0) :
    Held c s { s with table := s.table.hold c } := by
  have hgn := Gains.hold hs.indexed hrf
  refine ⟨hs.gains hgn, rfl, surplus_gains hgn, rfl, fun q => ?_⟩
  by_cases hq : q = c <;> simp [State.hold, hq]

theorem held_resume {i : ℕ} (hs : Invariant s) (hw : s.waits[i]? = some w) :
    Held w.towait s { s with waits := s.waits.eraseIdx i } := by
  obtain ⟨hlt, rfl⟩ := List.getElem?_eq_some_iff.mp hw
  have hsr : ∀ q, surplus { s with waits := s.waits.eraseIdx i } q =
      surplus s q + single s.waits[i].towait q := by
    intro q
    have hct := (List.getElem_cons_eraseIdx_perm hlt).countP_eq fun v : Wait => v.towait = q
    simp only [List.countP_cons, decide_eq_true_eq] at hct
    simp only [surplus, owed, waiting, single]
    omega
  refine ⟨⟨hs.indexed, fun v hv => hs.towait v (List.mem_of_mem_eraseIdx hv), hs.fresh,
    fun q hq hx => ?_⟩, rfl, hsr, rfl, fun _ => rfl⟩
  obtain ⟨hrp, hle⟩ := hs.live q hq hx
  refine ⟨hrp, ?_⟩
  rw [hsr]
  omega

structure Steps (s s' : State) (kept : Prop) : Prop where
  invariant : Invariant s'
  iff : (∀ c, Created s.table c → surplus s' c = surplus s c) ↔ kept
  new : ∀ c, Created s'.table c → ¬ Created s.table c → surplus s' c = 0

variable {kept : Prop}

theorem Steps.of_gains (hs : Invariant s) (h : Gains gain s.table t')
    (hkp : (∀ c, Created s.table c → gain c = 0) ↔ kept) :
    Steps s { s with table := t' } kept := by
  refine ⟨hs.gains h, ?_, fun c hc hnot => absurd ((created_iff h.nextPid).mp hc) hnot⟩
  rw [← hkp]
  refine forall_congr' fun c => imp_congr_right fun _ => ?_
  rw [surplus_gains h]
  omega

theorem Steps.of_call {s₁ : State} (hc : Created s.table w.towait) (h : Held w.towait s s₁)
    (hs : Invariant s) (hcl : waitpidProc s₁ w = some (o, s')) :
    Steps s s' (¬ ReapsAgain s w.caller w.thread w.towait) := by
  have hfc : (facts s₁.table w.towait).exited = (facts s.table w.towait).exited := by
    simp only [facts, h.signals]
  have hag : ReapsAgain s₁ w.caller w.thread w.towait ↔
      ReapsAgain s w.caller w.thread w.towait := by
    simp only [ReapsAgain, h.reaped, hfc, h.signals]
  have hlv : (facts s₁.table w.towait).exited = false → 1 ≤ surplus s₁ w.towait := by
    intro hx
    have hle := (hs.live _ hc (hfc ▸ hx)).2
    rw [h.surplus]
    simp only [single, if_true]
    omega
  obtain ⟨k, hed, hk⟩ := waitpidProc_ends h.invariant ((created_iff h.nextPid).mpr hc) hlv hcl
  have hnx := hed.nextPid.trans h.nextPid
  have hsr : ∀ c, surplus s' c = surplus s c - k * single w.towait c := by
    intro c
    rw [hed.loss, h.surplus]
    by_cases hcw : w.towait = c
    · simp only [single, if_pos hcw]
      omega
    · simp [single, hcw]
  refine ⟨hed.invariant, ?_, fun c hnew hold => absurd ((created_iff hnx).mp hnew) hold⟩
  rw [← hag, ← hk]
  constructor
  · intro hsm
    have hz := hsm w.towait hc
    rw [hsr] at hz
    simp only [single, if_true] at hz
    omega
  · rintro rfl c -
    simp [hsr]

theorem Steps.refl (hs : Invariant s) (hkp : kept) : Steps s s kept :=
  ⟨hs, iff_of_true (fun _ _ => rfl) hkp, fun _ hc hnot => absurd hc hnot⟩

theorem Steps.fork {memory : Signals.Signal → Option Signals.Sigaction} (hs : Invariant s)
    (hp : Created s.table p) (h : comSysSyscallFork s.table p memory = some (c, t')) :
    Steps s { s with table := t', threads := update s.threads c 1 } True := by
  obtain ⟨rfl, hin, had⟩ := fork_spec hs.indexed hp h
  have hold : ∀ q, Created t' q ↔ Created s.table q ∨ q = s.table.nextPid := by
    intro q
    have hps := hs.indexed.pos
    simp only [Created, had.nextPid]
    omega
  have hne : ∀ q, Created s.table q → q ≠ s.table.nextPid := fun q hq => hq.2.ne
  have hkp : ∀ q, Created s.table q → surplus
      { s with table := t', threads := update s.threads s.table.nextPid 1 } q =
      surplus s q := by
    intro q hq
    have hct : (facts t' q).numRef = (facts s.table q).numRef := by
      rw [had.facts, if_neg (hne q hq)]
      by_cases hqp : q = p <;> simp [hqp, Facts.addChild]
    simp only [surplus, owed, waiting, hct, update_of_ne (hne q hq)]
  have hchl : surplus
      { s with table := t', threads := update s.threads s.table.nextPid 1 }
      s.table.nextPid = 0 := by
    have hwn : s.waits.countP (fun w => decide (w.towait = s.table.nextPid)) = 0 :=
      List.countP_eq_zero.mpr fun w hw => by simpa using hne _ (hs.towait w hw)
    have hfr := (hs.fresh _ le_rfl).1
    simp [surplus, owed, waiting, had.facts, hwn, hfr]
  refine ⟨⟨hin, fun w hw => (hold _).mpr (.inl (hs.towait w hw)), fun q hq => ?_,
    fun q hq hx => ?_⟩, iff_of_true hkp trivial, fun q hq hnot => ?_⟩
  · have hle : s.table.nextPid + 1 ≤ q := had.nextPid ▸ hq
    obtain ⟨hrp, hth⟩ := hs.fresh q (by omega)
    exact ⟨hrp, by simpa [update_of_ne (show q ≠ s.table.nextPid by omega)] using hth⟩
  · rcases (hold q).mp hq with hq | rfl
    · have hbf : (facts s.table q).exited = false := by
        rw [had.facts, if_neg (hne q hq)] at hx
        by_cases hqp : q = p
        · simpa [hqp, Facts.addChild] using hx
        · simpa [hqp] using hx
      obtain ⟨hrp, hle⟩ := hs.live q hq hbf
      exact ⟨hrp, (hkp q hq).symm ▸ hle⟩
    · exact ⟨(hs.fresh _ le_rfl).1, hchl.ge⟩
  · obtain rfl := ((hold q).mp hq).resolve_left hnot
    exact hchl

theorem Steps.thread (hs : Invariant s) (hp : Created s.table p)
    (hx : (facts s.table p).exited = false) :
    Steps s { s with
      table := s.table.addThread p
      threads := update s.threads p (s.threads p + 1) } True := by
  have hgn := Gains.addThread hs.indexed (hs.numRef_ne_zero hp hx)
  have hkp : ∀ q, surplus { s with
      table := s.table.addThread p
      threads := update s.threads p (s.threads p + 1) } q = surplus s q := by
    intro q
    have hct := hgn.numRef q
    by_cases hq : p = q
    · subst hq
      simp only [single, if_true] at hct
      simp only [surplus, owed, waiting, hct, update_self]
      omega
    · simp only [single, if_neg hq] at hct
      simp only [surplus, owed, waiting, hct, update_of_ne (Ne.symm hq)]
      omega
  have hiv := hs.gains hgn
  refine ⟨⟨hiv.indexed, hiv.towait, fun q hq => ?_, fun q hq hlv => ?_⟩,
    iff_of_true (fun q _ => hkp q) trivial, fun q hq hnot => absurd hq hnot⟩
  · have hlt := hp.2
    have hle : s.table.nextPid ≤ q := hq
    obtain ⟨hrp, hth⟩ := hs.fresh q hle
    exact ⟨hrp, by simpa [update_of_ne (show q ≠ p by omega)] using hth⟩
  · obtain ⟨hrp, hle⟩ := hs.live q hq (hgn.exited q hlv)
    exact ⟨hrp, (hkp q).symm ▸ hle⟩

variable {thread : ℕ} {flags : BitVec 32}

theorem Steps.found (hs : Invariant s) (hc : Created s.table c)
    (hrf : (facts s.table c).numRef ≠ 0)
    (h : (if ((s.table.hold c).proc p).numChildren = 0 ∨
          ((s.table.hold c).proc c).parentPid ≠ p then
        (drop (s.table.hold c) c).map fun table => (Outcome.error .ECHILD, { s with table := table })
      else waitpidProc { s with table := s.table.hold c } ⟨p, thread, flags, c⟩) = some (o, s')) :
    Steps s s' ((facts s.table p).numChildren ≠ 0 → (facts s.table c).parentPid = p →
      ¬ ReapsAgain s p thread c) := by
  have hci : ((s.table.hold c).proc p).numChildren = (facts s.table p).numChildren := by
    by_cases hp : p = c <;> simp [State.hold, facts, hp]
  have hpr : ((s.table.hold c).proc c).parentPid = (facts s.table c).parentPid := by
    simp [State.hold, facts]
  rw [hci, hpr] at h
  split at h
  · next hstr =>
    have hdr : drop (s.table.hold c) c = some s.table := by
      have hct : ((s.table.hold c).proc c).numRef ≠ 0 := by simp [State.hold]
      rw [drop, if_neg hct, release_hold hrf]
    simp only [hdr, map_some, some.injEq, Prod.mk.injEq] at h
    obtain ⟨-, rfl⟩ := h
    exact .refl hs fun hne heq => absurd hstr (not_or.mpr ⟨hne, not_not.mpr heq⟩)
  · next hchl =>
    obtain ⟨hne, heq⟩ := not_or.mp hchl
    have hcl := Steps.of_call hc (held_hold hs hrf) hs h
    simpa [hne, not_not.mp heq] using hcl

theorem Steps.waitpid {stale : ℕ → Option ℕ} {pid : ℤ}
    (hs : Invariant s) (hstl : ∀ i c, stale i = some c → Created s.table c)
    (h : comSysSyscallWaitpid s p thread stale pid flags = some (o, s')) :
    Steps s s' (Condition s (.waitpid p thread stale pid flags)) := by
  unfold comSysSyscallWaitpid at h
  split at h
  · next hng =>
    cases h
    exact .refl hs fun c hpd => by omega
  · next hge =>
    by_cases han : pid = -1
    · have hcn : Condition s (.waitpid p thread stale pid flags) := fun c hpd => by omega
      simp only [if_pos han] at h
      cases hpc : comSysProcGetArbitraryChild s.table stale p with
      | mk found table =>
      cases found with
      | none =>
        have htb : table = s.table := by
          unfold comSysProcGetArbitraryChild at hpc
          split at hpc
          · exact (Prod.mk.inj hpc).2.symm
          · cases hpc
        simp only [hpc, htb, some.injEq, Prod.mk.injEq] at h
        obtain ⟨-, rfl⟩ := h
        exact .refl hs hcn
      | some c =>
        obtain ⟨rfl, hc, hpr, hx⟩ := hs.indexed.arbitraryChild hstl hpc
        simp only [hpc] at h
        have hst := Steps.found hs hc (hs.numRef_ne_zero hc hx) h
        -- the child has not exited, so it is not returned
        have hnot : ¬ ReapsAgain s p thread c := fun ha => by
          have het : (s.table.proc c).signals.exited = true := ha.2.1
          simp [hx] at het
        exact ⟨hst.invariant, hst.iff.trans (iff_of_true (fun _ _ => hnot) hcn), hst.new⟩
    · simp only [if_neg han, comSysProcGetByPid] at h
      cases hfd : s.table.find pid with
      | none =>
        simp only [hfd, some.injEq, Prod.mk.injEq] at h
        obtain ⟨-, rfl⟩ := h
        refine .refl hs fun c hpd hc hrf => ?_
        simp [hs.indexed.find.mpr ⟨hpd, hc, hrf⟩] at hfd
      | some c =>
        obtain ⟨hpd, hc, hrf⟩ := hs.indexed.find.mp hfd
        simp only [hfd] at h
        have hst := Steps.found hs hc hrf h
        refine ⟨hst.invariant, hst.iff.trans ⟨fun hk d hd _ _ => ?_, fun hk => ?_⟩, hst.new⟩
        · obtain rfl : d = c := by omega
          exact hk
        · exact hk c hpd hc hrf

theorem Steps.next {e : Event} (hs : Invariant s) (hen : Enabled s e)
    (h : ProcessReferenceCounts.next s e = some s') : Steps s s' (Condition s e) := by
  cases e with
  | fork p memory =>
    obtain ⟨⟨c, t'⟩, hfk, rfl⟩ := map_eq_some_iff.mp h
    exact .fork hs hen.1 hfk
  | thread p =>
    cases h
    exact .thread hs hen.1 hen.2
  | send pid sig =>
    cases h
    refine .of_gains hs (Gains.send hs.indexed pid sig) ⟨fun hz hsg => ?_, fun hk c _ => ?_⟩
    · cases hfd : s.table.find pid with
      | none => rfl
      | some q => simpa [hsg, hfd] using hz q (hs.indexed.find.mp hfd).2.1
    · by_cases hsg : Kill.ValidSignal sig
      · simp [hk hsg]
      · simp [hsg]
  | setpgid p pid pgid =>
    obtain ⟨⟨r, t'⟩, hcl, rfl⟩ := map_eq_some_iff.mp h
    obtain ⟨hlk, hke⟩ := gains_setpgid hs.indexed hen.1 hcl
    by_cases hsl : LooksUpItself s.table p pid pgid
    · refine .of_gains hs (hlk hsl) (iff_of_false (fun hz => ?_) (not_not.mpr hsl))
      simpa [single] using hz p hen.1
    · exact .of_gains hs (hke hsl) (iff_of_true (fun _ _ => rfl) hsl)
  | exit p status waiters =>
    cases h
    refine .of_gains hs (Gains.exit hs.indexed p status waiters) ⟨fun hz => ?_, fun hk c _ => ?_⟩
    · cases hfd : s.table.find (s.table.proc p).parentPid with
      | none => exact hfd
      | some q => simpa [hfd] using hz q (hs.indexed.find.mp hfd).2.1
    · have hno : s.table.find (s.table.proc p).parentPid = none := hk
      simp [hno]
  | waitpid p thread stale pid flags =>
    obtain ⟨⟨o, u⟩, hcl, rfl⟩ := map_eq_some_iff.mp h
    exact .waitpid hs hen.2.2 hcl
  | resume i =>
    obtain ⟨w, hw, h⟩ := bind_eq_some_iff.mp h
    obtain ⟨⟨o, u⟩, hcl, rfl⟩ := map_eq_some_iff.mp h
    have hme : w ∈ s.waits := List.mem_of_getElem? hw
    have hst := Steps.of_call (hs.towait w hme) (held_resume hs hw) hs hcl
    refine ⟨hst.invariant, hst.iff.trans ⟨fun hk v hv => ?_, fun hk => hk w hw⟩, hst.new⟩
    obtain rfl := some.inj (hw.symm.trans hv)
    exact hk

end Steps

def ReachedBy (ok : State → Event → Prop) (s : State) : Prop :=
  ∃ memory table, comInitPid1 memory = some table ∧ Runs.Reaches next ok (initial table) s

def Exact (s : State) : Prop := ∀ c, Created s.table c → (facts s.table c).numRef = owed s c

variable {s : State}

theorem exact_iff : Exact s ↔ ∀ c, Created s.table c → surplus s c = 0 := by
  refine forall_congr' fun c => imp_congr_right fun _ => ?_
  simp only [surplus]
  omega

theorem initial_spec {memory : Signals.Signal → Option Signals.Sigaction} {table : Table}
    (h : comInitPid1 memory = some table) : Invariant (initial table) ∧ Exact (initial table) := by
  obtain ⟨hin, hnx, hfc⟩ := init_spec h
  have hon : ∀ c, Created table c → c = 1 := fun c hc => by
    have hlt := hnx ▸ hc.2
    have hps := hc.1
    omega
  have hec : Exact (initial table) := by
    intro c hc
    obtain rfl := hon c hc
    simp [hfc, owed, waiting, initial]
  refine ⟨⟨hin, by simp [initial], fun c hc => ⟨rfl, ?_⟩, fun c hc _ => ⟨rfl, ?_⟩⟩, hec⟩
  · have hle : 2 ≤ c := hnx ▸ hc
    simp [initial, show c ≠ 1 by omega]
  · exact (exact_iff.mp hec c hc).ge

theorem ReachedBy.invariant {ok : State → Event → Prop}
    (hok : ∀ s e, ok s e → Enabled s e) (h : ReachedBy ok s) : Invariant s := by
  obtain ⟨memory, table, hii, hrn⟩ := h
  exact Runs.Reaches.invariant hrn Invariant (initial_spec hii).1 fun s e s' hs he hn =>
    (Steps.next hs (hok s e he) hn).invariant

theorem ReachedBy.exact (h : ReachedBy (fun s e => Enabled s e ∧ Condition s e) s) : Exact s := by
  obtain ⟨memory, table, hii, hrn⟩ := h
  have hbt : Invariant s ∧ Exact s := by
    refine Runs.Reaches.invariant hrn (fun s => Invariant s ∧ Exact s) (initial_spec hii) ?_
    rintro s e s' ⟨hs, hec⟩ ⟨hen, hcd⟩ hn
    have hst := Steps.next hs hen hn
    refine ⟨hst.invariant, exact_iff.mpr fun c hc => ?_⟩
    by_cases hold : Created s.table c
    · rw [hst.iff.mpr hcd c hold]
      exact exact_iff.mp hec c hold
    · exact hst.new c hc hold
  exact hbt.2

/-- Runs whose steps meet the condition keep the counts exact, and no other step does. -/
theorem reference_counts_exact (s : State) :
    (ReachedBy (fun s e => Enabled s e ∧ Condition s e) s → Exact s) ∧
      (ReachedBy Enabled s → ∀ e s', Enabled s e → next s e = some s' →
        ((∀ c, Created s.table c → surplus s' c = surplus s c) ↔ Condition s e)) :=
  ⟨fun h => h.exact, fun h _ _ hen hn => (Steps.next (h.invariant fun _ _ => id) hen hn).iff⟩

theorem reference_counts_exact_forked : ∃ s,
    ReachedBy (fun s e => Enabled s e ∧ Condition s e) s ∧ Created s.table 2 ∧ Exact s := by
  obtain ⟨s, hs, hcr⟩ : ∃ s,
      ReachedBy (fun s e => Enabled s e ∧ Condition s e) s ∧ Created s.table 2 :=
    ⟨_, ⟨fun _ => none, _, rfl,
      .step (.step (.step .start (e := .fork 1 fun _ => none)
        ⟨⟨⟨by decide, by decide⟩, rfl⟩, trivial⟩ rfl) (e := .thread 1)
        ⟨⟨⟨by decide, by decide⟩, rfl⟩, trivial⟩ rfl) (e := .send 3 15)
        ⟨trivial, fun _ => rfl⟩ rfl⟩, ⟨by decide, by decide⟩⟩
  exact ⟨s, hs, hcr, (reference_counts_exact s).1 hs⟩

/-- A signal to the first process leaves it with a reference that nothing is owed. -/
theorem signal_leaks_reference : ∃ s s', ReachedBy Enabled s ∧ Exact s ∧
    next s (.send 1 15) = some s' ∧ ¬ Exact s' := by
  obtain ⟨table, hii, s', hnx, hcr, hct, how⟩ : ∃ table,
      comInitPid1 (fun _ => none) = some table ∧ ∃ s', next (initial table) (.send 1 15) = some s' ∧
        Created s'.table 1 ∧ (facts s'.table 1).numRef = 3 ∧ owed s' 1 = 2 :=
    ⟨_, rfl, _, rfl, ⟨by decide, by decide⟩, rfl, rfl⟩
  refine ⟨initial table, s', ⟨_, table, hii, .start⟩, (initial_spec hii).2, hnx, fun h => ?_⟩
  have hon := h 1 hcr
  rw [hct, how] at hon
  exact absurd hon (by decide)

end ProcessReferenceCounts
