import SalernosKernel.ProcessReferences

/-! # Waiting for children

`com/sys/syscall/waitpid.c` with `fork` and `exit` of processes of one thread, a call being one step
up to where it returns or waits. -/
namespace WaitPid

open ProcessTable ProcessReferences Signals
open Function

def WNOHANG : BitVec 32 := 1

inductive Round where
  | interrupted
  | exited (status : ℕ)
  | stopped (status : ℕ)
  | nohang
  | wait
  deriving DecidableEq

def doWait (flags : BitVec 32) : Round := if flags &&& WNOHANG ≠ 0 then .nohang else .wait

def exitedStatus (towait : Process) : ℕ :=
  (towait.exitStatus % 256).toNat <<< 8 |||
    match towait.signals.stopSignal with
    | none => 0
    | some sig => (sig.val + 1) &&& 0x7f

def waitpidRound (caller : Thread) (towait : Process) (flags : BitVec 32) :
    Round × Process :=
  if (comIpcSignalCheckNolock caller).isSome then (.interrupted, towait)
  else if towait.signals.exited then (.exited (exitedStatus towait), towait)
  else
    match towait.signals.stopSignal with
    | none => (doWait flags, towait)
    | some sig =>
      if towait.stopNotified then (doWait flags, towait)
      else (.stopped (0x7f ||| (sig.val + 1) <<< 8), { towait with stopNotified := true })

structure Call where
  pid : ℤ
  flags : BitVec 32
  towait : ℕ

structure State where
  table : ProcessTable.State
  call : ℕ → Option Call
  returned : ℕ → ℕ

inductive Outcome where
  | ok (ret : ℕ) (status : Option ℕ)
  | error (err : Errno)
  | blocked
  deriving DecidableEq

def endRound (s : State) (p : ℕ) (k : Call) : Round × Process → Option (Outcome × State) :=
  let done (o : Outcome) (table : ProcessTable.State) : Outcome × State :=
    (o, { s with table := table, call := update s.call p none })
  fun
  | (.interrupted, _) => (s.table.release k.towait).map (done (.error .EINTR))
  | (.exited status, _) =>
    ((s.table.release k.towait).bind fun table => table.release k.towait).map fun table =>
      (.ok k.towait (some status),
        { table := table
          call := update s.call p none
          returned := update s.returned k.towait (s.returned k.towait + 1) })
  | (.stopped status, towait) =>
    ((s.table.modify k.towait fun _ => towait).release k.towait).map
      (done (.ok k.towait (some status)))
  | (.nohang, _) => (s.table.release k.towait).map (done (.ok 0 none))
  | (.wait, _) =>
    some (.blocked,
      { s with
        table := s.table.modify p fun proc => { proc with
          signals := proc.signals.modifyThread 0 fun t => { t with activity := .waiting .other } }
        call := update s.call p (some k) })

def waitpidProc (s : State) (p : ℕ) (k : Call) : Option (Outcome × State) :=
  ((s.table.proc p).signals.threads[0]?).bind fun caller =>
    endRound s p k (waitpidRound caller (s.table.proc k.towait) k.flags)

def comSysSyscallWaitpid (s : State) (p : ℕ) (stale : ℕ → Option ℕ) (pid : ℤ) (flags : BitVec 32) :
    Option (Outcome × State) :=
  if pid < -1 then some (.error .ENOSYS, s)
  else
    match if pid = -1 then comSysProcGetArbitraryChild s.table stale p
      else comSysProcGetByPid s.table pid with
    | (none, table) => some (.error .ECHILD, { s with table := table })
    | (some towait, table) =>
      if (table.proc p).numChildren = 0 ∨ (table.proc towait).parentPid ≠ p then
        (table.release towait).map fun table => (.error .ECHILD, { s with table := table })
      else waitpidProc { s with table := table } p ⟨pid, flags, towait⟩

inductive Event where
  | fork (p : ℕ) (memory : Signal → Option Sigaction)
  | exit (p : ℕ) (status : ℤ)
  | waitpid (p : ℕ) (stale : ℕ → Option ℕ) (pid : ℤ) (flags : BitVec 32)
  | resume (p : ℕ)
  | interrupt (p : ℕ)

def Live (s : State) (p : ℕ) (P : Thread → Prop) : Prop :=
  Created s.table p ∧ (facts s.table p).exited = false ∧
    ∃ t, (s.table.proc p).signals.threads[0]? = some t ∧ P t

def InUser (s : State) (p : ℕ) : Prop := s.call p = none ∧ Live s p fun t => t.pc = .outside

def Enabled (s : State) : Event → Prop
  | .fork p _ | .exit p _ | .interrupt p => InUser s p
  | .waitpid p stale _ _ => InUser s p ∧ ∀ i c, stale i = some c → Created s.table c
  | .resume p => (s.call p).isSome ∧ Live s p fun t => t.activity ≠ .waiting .other

def dispatch (past : ℕ → ℕ) (s : State) (p : ℕ) : State :=
  { s with table := s.table.modify p fun proc =>
      { proc with signals := (comIpcSignalDispatch past proc.signals 0).2 } }

def waiters (s : State) (p : ℕ) : List ℕ :=
  let parent := (s.table.proc p).parentPid
  if (s.call parent).map Call.towait = some p then [parent] else []

def leave (past : ℕ → ℕ) (p : ℕ) : Outcome × State → State
  | (.blocked, s) => s
  | (_, s) => dispatch past s p

def next (past : ℕ → ℕ) (s : State) : Event → Option State
  | .fork p memory => (comSysSyscallFork s.table p memory).map fun made =>
      dispatch past { s with table := made.2 } p
  | .exit p status => some { s with table := comSysProcExit s.table p status (waiters s p) }
  | .waitpid p stale pid flags => (comSysSyscallWaitpid s p stale pid flags).map (leave past p)
  | .resume p => (s.call p).bind fun k => (waitpidProc s p k).map (leave past p)
  | .interrupt p => some (dispatch past s p)

def Reached (past : ℕ → ℕ) (s : State) : Prop :=
  ∃ memory table, comInitPid1 memory = some table ∧
    Runs.Reaches (next past) Enabled ⟨table, fun _ => none, fun _ => 0⟩ s

def SignalPending (s : State) (p : ℕ) : Prop :=
  ∃ t, (s.table.proc p).signals.threads[0]? = some t ∧ (comIpcSignalCheckNolock t).isSome

variable {past : ℕ → ℕ} {s s' : State} {p q c : ℕ} {k : Call} {o : Outcome} {pid : ℤ}
  {flags : BitVec 32} {stale : ℕ → Option ℕ}

def blockedOn (s : State) (c : ℕ) : ℕ :=
  if (s.call (facts s.table c).parentPid).map Call.towait = some c then 1 else 0

def owed (s : State) (c : ℕ) : ℕ :=
  (if s.returned c = 0 then 2 else blockedOn s c) + blockedOn s c

structure Core (s : State) : Prop where
  indexed : Indexed s.table
  parent_lt : ∀ c, Created s.table c → (facts s.table c).parentPid < c
  numChildren_pos : ∀ c, Created s.table c → Created s.table (facts s.table c).parentPid →
    1 ≤ (facts s.table (facts s.table c).parentPid).numChildren
  held : ∀ c, Created s.table c → owed s c ≤ (facts s.table c).numRef
  live : ∀ c, Created s.table c → (facts s.table c).exited = false → s.returned c = 0
  fresh : ∀ c, s.table.nextPid ≤ c → s.returned c = 0
  waiting : ∀ p k, s.call p = some k → Created s.table k.towait ∧
    (facts s.table k.towait).parentPid = p

/-- Also, no process waits for one that has been returned. -/
structure Invariant (s : State) : Prop extends Core s where
  unreturned : ∀ p k, s.call p = some k → s.returned k.towait = 0

theorem blockedOn_of_call (hk : s.call p = some k) (hpa : (facts s.table c).parentPid = p) :
    blockedOn s c = if k.towait = c then 1 else 0 := by
  simp [blockedOn, hpa, hk]

theorem blockedOn_of_none (hp : s.call p = none) (hpa : (facts s.table c).parentPid = p) :
    blockedOn s c = 0 := by
  simp [blockedOn, hpa, hp]

theorem blockedOn_of_ne (hpa : (facts s.table c).parentPid = p)
    (h : ∀ j, s.call p = some j → j.towait ≠ c) : blockedOn s c = 0 := by
  cases hp : s.call p with
  | none => exact blockedOn_of_none hp hpa
  | some j => rw [blockedOn_of_call hp hpa, if_neg (h j hp)]

theorem Core.same {table : ProcessTable.State} (hs : Core s) (h : SameFacts s.table table) :
    Core { s with table := table } := by
  have hct : ∀ c, Created table c ↔ Created s.table c := fun _ => created_iff h.nextPid
  have how : ∀ c, owed { s with table := table } c = owed s c := fun c => by
    simp only [owed, blockedOn, h.facts]
  refine ⟨h.indexed hs.indexed, ?_, ?_, ?_, ?_, ?_, ?_⟩
  · intro c
    simpa only [hct, h.facts] using hs.parent_lt c
  · intro c
    simpa only [hct, h.facts] using hs.numChildren_pos c
  · intro c
    simpa only [hct, h.facts, how] using hs.held c
  · intro c
    simpa only [hct, h.facts] using hs.live c
  · intro c
    simpa only [h.nextPid] using hs.fresh c
  · intro p k
    simpa only [hct, h.facts] using hs.waiting p k

theorem Invariant.dispatch (h : Invariant s) (past : ℕ → ℕ) (p : ℕ) :
    Invariant (dispatch past s p) := by
  have hsm : SameFacts s.table (s.table.modify p fun proc =>
      { proc with signals := (comIpcSignalDispatch past proc.signals 0).2 }) :=
    sameFacts_modify fun _ => ⟨rfl, rfl, rfl, dispatch_exited past _ 0⟩
  exact ⟨h.toCore.same hsm, h.unreturned⟩

theorem Core.at_child {f : Facts → Facts} {x : Option Call} {n : ℕ} (h : Core s)
    (hc : Created s.table c) (hpa : (facts s.table c).parentPid = p)
    (hcl : ∀ j, s.call p = some j → j.towait = c) (hx : ∀ j, x = some j → j.towait = c)
    (hf : ∀ y, f y = { y with numRef := (f y).numRef }) (hch : Changed c f s.table s'.table)
    (hin : Indexed s'.table) (hcl' : s'.call = update s.call p x)
    (hrt' : s'.returned = update s.returned c n)
    (how : owed s' c ≤ (f (facts s.table c)).numRef)
    (hlv : (facts s.table c).exited = false → n = 0) : Core s' := by
  have hfc : ∀ q, facts s'.table q =
      { facts s.table q with numRef := (facts s'.table q).numRef } := by
    intro q
    rw [hch.facts]
    by_cases hq : q = c
    · subst hq
      simpa using hf (facts s.table q)
    · simp [hq]
  have hpr : ∀ q, (facts s'.table q).parentPid = (facts s.table q).parentPid := fun q => by
    rw [hfc]
  have hot : ∀ q, q ≠ c → owed s' q = owed s q := by
    intro q hq
    have hbl : blockedOn s' q = blockedOn s q := by
      by_cases hqp : (facts s.table q).parentPid = p
      · rw [blockedOn_of_ne (s := s) hqp fun j hj => hcl j hj ▸ hq.symm,
          blockedOn_of_ne ((hpr q).trans hqp) fun j hj => hx j (by simpa [hcl'] using hj) ▸
            hq.symm]
      · simp [blockedOn, hpr, hcl', hqp]
    rw [owed, owed, hbl, hrt', update_of_ne hq]
  refine ⟨hin, ?_, ?_, ?_, ?_, ?_, ?_⟩
  · intro q hq
    rw [hpr]
    exact h.parent_lt q (hch.created.mp hq)
  · intro q hq
    rw [hpr, hfc, hch.created]
    exact h.numChildren_pos q (hch.created.mp hq)
  · intro q hq
    rw [hch.facts]
    by_cases hqc : q = c
    · subst hqc
      simpa using how
    · rw [if_neg hqc, hot q hqc]
      exact h.held q (hch.created.mp hq)
  · intro q hq het
    rw [hfc] at het
    rw [hrt']
    by_cases hqc : q = c
    · subst hqc
      simpa using hlv het
    · rw [update_of_ne hqc]
      exact h.live q (hch.created.mp hq) het
  · intro q hq
    rw [hch.nextPid] at hq
    have hqc : q ≠ c := fun heq => absurd hc.2 (not_lt.mpr (heq ▸ hq))
    rw [hrt', update_of_ne hqc]
    exact h.fresh q hq
  · intro q j hj
    rw [hch.created, hpr]
    by_cases hqp : q = p
    · subst hqp
      have hjc := hx j (by simpa [hcl'] using hj)
      exact hjc.symm ▸ ⟨hc, hpa⟩
    · rw [hcl', update_of_ne hqp] at hj
      exact h.waiting q j hj

theorem Core.enter (h : Core s) (hp : s.call p = none) (hc : Created s.table k.towait)
    (hpa : (facts s.table k.towait).parentPid = p)
    (hrf : (facts s.table k.towait).numRef ≠ 0) :
    Core { s with table := s.table.hold k.towait, call := update s.call p (some k) } := by
  have hhd := h.held _ hc
  refine h.at_child hc hpa (x := some k) (n := s.returned k.towait) (by simp [hp]) (by simp)
    (fun _ => rfl) (changed_hold s.table k.towait) (h.indexed.hold hrf) rfl (by simp) ?_
    (h.live _ hc)
  have haf : blockedOn { s with
      table := s.table.hold k.towait
      call := update s.call p (some k) } k.towait = 1 := by
    rw [blockedOn_of_call (p := p) (k := k) (by simp) (by
      rw [(changed_hold s.table k.towait).facts, if_pos rfl]; exact hpa), if_pos rfl]
  simp only [owed, haf, blockedOn_of_none hp hpa, Facts.hold] at hhd ⊢
  by_cases hz : s.returned k.towait = 0
  · simp only [hz, if_true] at hhd ⊢
    omega
  · simp only [hz, if_false]
    omega

theorem Core.blockedOn_eq (h : Core s) (hk : s.call p = some k) : blockedOn s k.towait = 1 := by
  rw [blockedOn_of_call hk (h.waiting p k hk).2, if_pos rfl]

theorem Core.drop (h : Core s) (hk : s.call p = some k) :
    ∃ table, s.table.release k.towait = some table ∧
      Core { s with table := table, call := update s.call p none } := by
  obtain ⟨hc, hpa⟩ := h.waiting p k hk
  have hhd := h.held _ hc
  simp only [owed, h.blockedOn_eq hk] at hhd
  have hrf : (facts s.table k.towait).numRef ≠ 0 := by split at hhd <;> omega
  obtain ⟨table, hrl, hin, hch⟩ := h.indexed.release hc hrf
  refine ⟨table, hrl, h.at_child hc hpa (x := none) (n := s.returned k.towait)
    (by simp [hk]) (by simp) (fun _ => rfl) hch hin rfl (by simp) ?_ (h.live _ hc)⟩
  have haf : blockedOn { s with table := table, call := update s.call p none }
      k.towait = 0 :=
    blockedOn_of_none (p := p) (by simp) (by rw [hch.facts, if_pos rfl]; exact hpa)
  simp only [owed, haf, Facts.release]
  by_cases hz : s.returned k.towait = 0
  · simp only [hz, if_true] at hhd ⊢
    omega
  · simp only [hz, if_false]
    omega

theorem Core.reap (h : Core s) (hk : s.call p = some k)
    (het : (facts s.table k.towait).exited = true) :
    ∃ table, ((s.table.release k.towait).bind fun table => table.release k.towait) = some table ∧
      Core { table := table
             call := update s.call p none
             returned := update s.returned k.towait (s.returned k.towait + 1) } := by
  obtain ⟨hc, hpa⟩ := h.waiting p k hk
  have hhd := h.held _ hc
  simp only [owed, h.blockedOn_eq hk] at hhd
  have hrf : 2 ≤ (facts s.table k.towait).numRef := by split at hhd <;> omega
  obtain ⟨first, hfs, hin₁, hch₁⟩ := h.indexed.release hc (by omega)
  have hlf : (facts first k.towait).numRef ≠ 0 := by
    rw [hch₁.facts, if_pos rfl]
    simp only [Facts.release]
    omega
  obtain ⟨table, htb, hin, hch₂⟩ :=
    hin₁.release (hch₁.created.mpr hc) hlf
  have hch : Changed k.towait (Facts.release ∘ Facts.release) s.table table := by
    refine ⟨hch₂.nextPid.trans hch₁.nextPid, fun q => ?_⟩
    rw [hch₂.facts, hch₁.facts, hch₁.facts]
    by_cases hq : q = k.towait <;> simp [hq]
  refine ⟨table, by rw [hfs, Option.bind_some, htb], h.at_child hc hpa (x := none)
    (by simp [hk]) (by simp) (fun _ => rfl) hch hin rfl rfl ?_ (by simp [het])⟩
  have haf : blockedOn { table := table
                         call := update s.call p none
                         returned := update s.returned k.towait
                           (s.returned k.towait + 1) } k.towait = 0 :=
    blockedOn_of_none (p := p) (by simp) (by rw [hch.facts, if_pos rfl]; exact hpa)
  simp [owed, haf]

theorem waitpidProc_update (s : State) (p : ℕ) (k : Call) (x : Option Call) :
    waitpidProc { s with call := update s.call p x } p k = waitpidProc s p k := by
  simp only [waitpidProc, endRound, update_idem]

inductive Found (caller : Thread) (towait : Process) : Round → Process → Prop where
  | interrupted : (comIpcSignalCheckNolock caller).isSome →
      Found caller towait .interrupted towait
  | exited (status : ℕ) : ¬ (comIpcSignalCheckNolock caller).isSome →
      towait.signals.exited = true → Found caller towait (.exited status) towait
  | stopped (status : ℕ) : towait.signals.exited = false →
      Found caller towait (.stopped status) { towait with stopNotified := true }
  | nohang : towait.signals.exited = false → Found caller towait .nohang towait
  | wait : towait.signals.exited = false → Found caller towait .wait towait

theorem found_round (caller : Thread) (towait : Process) (flags : BitVec 32) :
    Found caller towait (waitpidRound caller towait flags).1
      (waitpidRound caller towait flags).2 := by
  have hwt : towait.signals.exited = false → Found caller towait (doWait flags) towait := by
    intro hlv
    unfold doWait
    split
    · exact .nohang hlv
    · exact .wait hlv
  unfold waitpidRound
  split
  · next hsg => exact .interrupted hsg
  · next hsg =>
    split
    · next het => exact .exited _ hsg het
    · next het =>
      have hlv := Bool.eq_false_of_not_eq_true het
      split
      · exact hwt hlv
      · split
        · exact hwt hlv
        · exact .stopped _ hlv

inductive Ends (s : State) (p : ℕ) (k : Call) : Outcome → Prop where
  | interrupted : SignalPending s p → Ends s p k (.error .EINTR)
  | exited (status : Option ℕ) : ¬ SignalPending s p → (facts s.table k.towait).exited = true →
      Ends s p k (.ok k.towait status)
  | stopped (status : Option ℕ) : (facts s.table k.towait).exited = false →
      Ends s p k (.ok k.towait status)
  | nohang : (facts s.table k.towait).exited = false → Ends s p k (.ok 0 none)
  | blocked : (facts s.table k.towait).exited = false → Ends s p k .blocked

theorem Core.round {t : Thread} (h : Core s) (hk : s.call p = some k)
    (hun : ∀ q j, q ≠ p → s.call q = some j → s.returned j.towait = 0)
    (ht : (s.table.proc p).signals.threads[0]? = some t) :
    ∃ o s', waitpidProc s p k = some (o, s') ∧ Invariant s' ∧ Ends s p k o := by
  obtain ⟨hc, hpa⟩ := h.waiting p k hk
  have hdn : ∀ q j, update s.call p none q = some j → q ≠ p ∧ s.call q = some j := by
    intro q j hj
    by_cases hq : q = p
    · simp [hq] at hj
    · exact ⟨hq, by simpa [hq] using hj⟩
  have hdn' : ∀ q j, update s.call p none q = some j → s.returned j.towait = 0 :=
    fun q j hj => hun q j (hdn q j hj).1 (hdn q j hj).2
  have hsg : SignalPending s p ↔ (comIpcSignalCheckNolock t).isSome := by
    simp [SignalPending, ht]
  have hprc : waitpidProc s p k =
      endRound s p k (waitpidRound t (s.table.proc k.towait) k.flags) := by
    rw [waitpidProc, ht, Option.bind_some]
  rw [hprc]
  have hfn := found_round t (s.table.proc k.towait) k.flags
  revert hfn
  generalize waitpidRound t (s.table.proc k.towait) k.flags = r
  obtain ⟨r, towait⟩ := r
  intro hfn
  cases hfn with
  | interrupted hcheck =>
    obtain ⟨table, htb, hcr⟩ := h.drop hk
    exact ⟨_, _, Option.map_eq_some_iff.mpr ⟨table, htb, rfl⟩, ⟨hcr, hdn'⟩,
      .interrupted (hsg.mpr hcheck)⟩
  | exited status hcheck het =>
    obtain ⟨table, htb, hcr⟩ := h.reap hk het
    refine ⟨_, _, Option.map_eq_some_iff.mpr ⟨table, htb, rfl⟩, ⟨hcr, fun q j hj => ?_⟩,
      .exited _ (hsg.not.mpr hcheck) het⟩
    -- Another process waits for a child of its own.
    obtain ⟨hq, hcl⟩ := hdn q j hj
    have hne : j.towait ≠ k.towait := fun heq =>
      hq ((h.waiting q j hcl).2.symm.trans (heq ▸ hpa))
    simpa [hne] using hun q j hq hcl
  | stopped status hlv =>
    obtain ⟨table, htb, hcr⟩ := (h.same sameFacts_notified).drop (p := p) hk
    exact ⟨_, _, Option.map_eq_some_iff.mpr ⟨table, htb, rfl⟩, ⟨hcr, hdn'⟩, .stopped _ hlv⟩
  | nohang hlv =>
    obtain ⟨table, htb, hcr⟩ := h.drop hk
    exact ⟨_, _, Option.map_eq_some_iff.mpr ⟨table, htb, rfl⟩, ⟨hcr, hdn'⟩, .nohang hlv⟩
  | wait hlv =>
    have hsm : SameFacts s.table (s.table.modify p fun proc => { proc with
        signals := proc.signals.modifyThread 0 fun t => { t with activity := .waiting .other } }) :=
      sameFacts_modify fun _ => ⟨rfl, rfl, rfl, rfl⟩
    have hcl : update s.call p (some k) = s.call := by rw [← hk, update_eq_self]
    refine ⟨_, _, rfl, ⟨by rw [hcl]; exact h.same hsm, fun q j hj => ?_⟩, .blocked hlv⟩
    rw [hcl] at hj
    by_cases hq : q = p
    · obtain rfl : k = j := Option.some.inj ((hq ▸ hk).symm.trans hj)
      exact h.live _ hc hlv
    · exact hun q j hq hj

theorem Ends.of_enter {call : ℕ → Option Call}
    (h : Ends { s with table := s.table.hold c, call := call } p k o) : Ends s p k o := by
  have hsn : ∀ q, ((s.table.hold c).proc q).signals = (s.table.proc q).signals := fun _ =>
    modify_reads Process.signals fun _ => rfl
  have hsg : SignalPending { s with table := s.table.hold c, call := call } p ↔
      SignalPending s p := by
    simp only [SignalPending, hsn]
  have het : (facts (s.table.hold c) k.towait).exited = (facts s.table k.towait).exited := by
    simp only [facts, hsn]
  cases h with
  | interrupted hs => exact .interrupted (hsg.mp hs)
  | exited status hs he => exact .exited status (hsg.not.mp hs) (het.symm.trans he)
  | stopped status he => exact .stopped status (het.symm.trans he)
  | nohang he => exact .nohang (het.symm.trans he)
  | blocked he => exact .blocked (het.symm.trans he)

theorem Core.numRef_ne_zero (h : Core s) (hc : Created s.table c) (hz : s.returned c = 0) :
    (facts s.table c).numRef ≠ 0 := by
  have hhd := h.held c hc
  simp only [owed, hz, if_true] at hhd
  omega

theorem Core.arbitraryChild (h : Core s) (hst : ∀ i c, stale i = some c → Created s.table c) :
    (comSysProcGetArbitraryChild s.table stale p = (none, s.table) ∧
      ∀ c, Created s.table c → ¬ s.table.LiveChild p c) ∨
    ∃ c, comSysProcGetArbitraryChild s.table stale p = (some c, s.table.hold c) ∧
      Created s.table c ∧ s.table.LiveChild p c := by
  cases hpc : comSysProcGetArbitraryChild s.table stale p with
  | mk found table =>
  cases found with
  | none =>
    unfold comSysProcGetArbitraryChild at hpc
    split at hpc
    · next hfd =>
      obtain rfl := (Prod.mk.inj hpc).2
      refine .inl ⟨rfl, fun c hc hlv => ?_⟩
      have hme : c - 1 ∈ List.range (s.table.nextPid + 1) := by
        have := hc.2
        simp only [List.mem_range]
        omega
      have hno := List.findSome?_eq_none_iff.mp hfd (c - 1) hme
      have hgt := (h.indexed.get (c - 1) (h.indexed.lt hc) c).mpr
        ⟨by have := hc.1; omega, hc, h.numRef_ne_zero hc (h.live c hc hlv.2)⟩
      simp [ProcessTable.State.candidate, hgt, hlv] at hno
    · cases hpc
  | some c =>
    obtain ⟨rfl, hc, hlv⟩ := h.indexed.arbitraryChild hst hpc
    exact .inr ⟨c, rfl, hc, hlv⟩

inductive CallEnds (s : State) (p : ℕ) (pid : ℤ) : Outcome → Prop where
  | nosys : pid < -1 → CallEnds s p pid (.error .ENOSYS)
  | nobody : (pid = -1 → ∀ c, Created s.table c → ¬ s.table.LiveChild p c) →
      (∀ c : ℕ, pid = c → Created s.table c → (facts s.table c).numRef = 0) →
      CallEnds s p pid (.error .ECHILD)
  | stranger (c : ℕ) : pid = c → (facts s.table c).parentPid ≠ p → CallEnds s p pid (.error .ECHILD)
  | round {o : Outcome} (k : Call) : Created s.table k.towait →
      (facts s.table k.towait).parentPid = p → (facts s.table k.towait).numRef ≠ 0 →
      (pid = -1 ∧ (facts s.table k.towait).exited = false ∨ pid = k.towait) → Ends s p k o →
      CallEnds s p pid o

theorem Invariant.found (h : Invariant s) (hp : InUser s p) (hc : Created s.table c)
    (hrf : (facts s.table c).numRef ≠ 0)
    (hpd : pid = -1 ∧ s.table.LiveChild p c ∨ pid = c) :
    ∃ o s', (if ((s.table.hold c).proc p).numChildren = 0 ∨
        ((s.table.hold c).proc c).parentPid ≠ p then
          ((s.table.hold c).release c).map fun table => (.error .ECHILD, { s with table := table })
        else waitpidProc { s with table := s.table.hold c } p ⟨pid, flags, c⟩) = some (o, s') ∧
      Invariant s' ∧ CallEnds s p pid o := by
  obtain ⟨hcl, hlv⟩ := hp
  obtain ⟨hct, -, t, ht, -⟩ := hlv
  have hsn : ((s.table.hold c).proc p).signals = (s.table.proc p).signals :=
    modify_reads Process.signals fun _ => rfl
  have hci : ((s.table.hold c).proc p).numChildren = (s.table.proc p).numChildren :=
    modify_reads Process.numChildren fun _ => rfl
  have hpp : ((s.table.hold c).proc c).parentPid = (s.table.proc c).parentPid :=
    modify_reads Process.parentPid fun _ => rfl
  rw [hci, hpp]
  by_cases hpa : (s.table.proc c).parentPid = p
  · have hfc : (facts s.table c).parentPid = p := hpa
    have hnm : (s.table.proc p).numChildren ≠ 0 := by
      have hps := h.numChildren_pos c hc
      rw [hfc] at hps
      exact Nat.one_le_iff_ne_zero.mp (hps hct)
    rw [if_neg (by simp [hnm, hpa]), ← waitpidProc_update _ _ _ (some ⟨pid, flags, c⟩)]
    have hcr := h.toCore.enter (k := ⟨pid, flags, c⟩) hcl hc hpa hrf
    have hun : ∀ q j, q ≠ p → update s.call p (some ⟨pid, flags, c⟩) q = some j →
        s.returned j.towait = 0 := fun q j hq hj =>
      h.unreturned q j (by simpa [hq] using hj)
    obtain ⟨o, s', hprc, hiv, hen⟩ := hcr.round (p := p) (k := ⟨pid, flags, c⟩) (by simp)
      hun (by simpa only [hsn] using ht)
    refine ⟨o, s', hprc, hiv, .round ⟨pid, flags, c⟩ hc hpa hrf ?_ hen.of_enter⟩
    exact hpd.imp (fun ⟨han, hchl⟩ => ⟨han, hchl.2⟩) id
  · rw [if_pos (.inr hpa), release_hold hrf]
    refine ⟨_, _, rfl, h, .stranger c ?_ hpa⟩
    exact hpd.resolve_left fun ⟨_, hchl⟩ => hpa hchl.1

theorem Invariant.waitpid (h : Invariant s) (hp : InUser s p)
    (hst : ∀ i c, stale i = some c → Created s.table c) (pid : ℤ) (flags : BitVec 32) :
    ∃ o s', comSysSyscallWaitpid s p stale pid flags = some (o, s') ∧ Invariant s' ∧
      CallEnds s p pid o := by
  unfold comSysSyscallWaitpid
  by_cases hng : pid < -1
  · exact ⟨_, s, if_pos hng, h, .nosys hng⟩
  · split_ifs with han
    · rcases h.toCore.arbitraryChild (p := p) hst with ⟨hno, hnb⟩ | ⟨c, hso, hc, hlv⟩
      · rw [hno]
        exact ⟨_, s, rfl, h, .nobody (fun _ => hnb) fun c hc => by omega⟩
      · rw [hso]
        exact h.found hp hc (h.toCore.numRef_ne_zero hc (h.live c hc hlv.2)) (.inl ⟨han, hlv⟩)
    · unfold comSysProcGetByPid
      cases hfd : s.table.find pid with
      | none =>
        refine ⟨_, s, rfl, h, .nobody (fun hpd => absurd hpd han) fun c hpd hc => ?_⟩
        by_contra hrf
        simp [h.indexed.find.mpr ⟨hpd, hc, hrf⟩] at hfd
      | some c =>
        obtain ⟨hpd, hc, hrf⟩ := h.indexed.find.mp hfd
        exact h.found hp hc hrf (.inr hpd)

end WaitPid
