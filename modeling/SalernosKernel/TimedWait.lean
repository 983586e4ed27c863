import SalernosKernel.Runs
import SalernosKernel.Threads

/-! # Timed waits

`com_sys_sched_wait_nodrop_timeout` and `com_sys_sched_wait_spinlock_timeout` of `com/sys/sched.c`,
seen from one thread that makes any number of them. The lock of the second one is left out: its
holder cannot keep a callout from running. -/
namespace TimedWait

open Threads (ThreadState)
open Option

inductive Phase where
  | outside
  | arming
  | inserting (timed : Bool)
  | waiting (timed : Bool)
  | cancelling (timed : Bool)
  | checking
  deriving DecidableEq

structure State where
  phase : Phase
  state : ThreadState
  waitingOn : Bool
  listed : Bool
  timedWaitExpired : Bool
  wait : ℕ
  queued : Option ℕ
  firing : Option ℕ
  notifying : ℕ
  executed : Bool
  timedOut : Bool
  deriving DecidableEq

inductive Event where
  | begin (timeout : ℕ)
  | arm
  | insert
  | resume
  | cancel
  | check
  | notify
  | ready
  | notifyThread
  | callout
  | handleTimeout
  deriving DecidableEq

def initial : State := ⟨.outside, .running, false, false, false, 0, none, none, 0, false, false⟩

namespace State

variable (s : State)

def comSysThreadReady : State := { s with waitingOn := false, state := .ready }

def comSysSchedNotifyThread : State :=
  if s.waitingOn then { s with listed := false }.comSysThreadReady else s

def schedHandleTimeout : State := { s with timedWaitExpired := true }.comSysSchedNotifyThread

end State

def next (s : State) : Event → Option State
  | .begin timeout =>
    if s.phase = .outside then
      some { s with
        phase := if timeout ≠ 0 then .arming else .inserting false
        timedWaitExpired := false
        wait := s.wait + 1
        executed := false }
    else none
  | .arm =>
    if s.phase = .arming then some { s with phase := .inserting true, queued := some s.wait }
    else none
  | .insert =>
    match s.phase with
    | .inserting timed =>
      some { s with phase := .waiting timed, waitingOn := true, state := .waiting, listed := true }
    | _ => none
  | .resume =>
    match s.phase with
    | .waiting timed =>
      if s.state = .ready then some { s with phase := .cancelling timed, state := .running }
      else none
    | _ => none
  | .cancel =>
    match s.phase with
    | .cancelling timed =>
      some { s with
        phase := if timed then .checking else .outside
        queued := none
        timedOut := false }
    | _ => none
  | .check =>
    if s.phase = .checking then some { s with phase := .outside, timedOut := s.timedWaitExpired }
    else none
  | .notify =>
    if s.listed then some { s with listed := false, notifying := s.notifying + 1 } else none
  | .ready =>
    if 0 < s.notifying then some { s with notifying := s.notifying - 1 }.comSysThreadReady else none
  | .notifyThread => some s.comSysSchedNotifyThread
  | .callout =>
    match s.queued, s.firing with
    | some k, none => some { s with queued := none, firing := some k }
    | _, _ => none
  | .handleTimeout =>
    match s.firing with
    | some k =>
      some { s with firing := none, executed := s.executed || k = s.wait }.schedHandleTimeout
    | none => none

def Missed (s : State) : Prop := s.executed = true ∧ s.state = .waiting ∧ s.listed = true
  deriving Decidable

/-- The handler does not run for a wait that has armed its callout and not yet joined the list. -/
def InTime (s : State) (e : Event) : Prop :=
  e = .handleTimeout → s.firing = some s.wait → s.phase ≠ .inserting true
  deriving Decidable

def Armed (s : State) (k : ℕ) : Prop :=
  k ≤ s.wait ∧ (k = s.wait → s.phase ≠ .arming ∧ s.phase ≠ .inserting false)

structure Invariant (s : State) : Prop where
  waiting : s.state = .waiting → s.waitingOn = true
  queued : ∀ k, s.queued = some k → Armed s k
  firing : ∀ k, s.firing = some k → Armed s k
  joined : s.executed = true → s.phase ≠ .arming ∧ ∀ timed, s.phase ≠ .inserting timed
  heard : ¬ Missed s

theorem invariant_initial : Invariant initial :=
  ⟨by decide, nofun, nofun, nofun, by decide⟩

section Steps

variable {s s' : State}

theorem Invariant.notifyThread (h : Invariant s) : Invariant s.comSysSchedNotifyThread := by
  rw [State.comSysSchedNotifyThread]
  split_ifs
  · exact ⟨nofun, h.queued, h.firing, h.joined, fun hm => nomatch hm.2.1⟩
  · exact h

theorem handleTimeout_state (hwn : s.state = .waiting → s.waitingOn = true) :
    s.schedHandleTimeout.state ≠ .waiting ∧ s.schedHandleTimeout.phase = s.phase ∧
      s.schedHandleTimeout.wait = s.wait ∧ s.schedHandleTimeout.queued = s.queued ∧
      s.schedHandleTimeout.firing = s.firing ∧ s.schedHandleTimeout.executed = s.executed := by
  rw [State.schedHandleTimeout, State.comSysSchedNotifyThread]
  split_ifs with hon
  · exact ⟨nofun, rfl, rfl, rfl, rfl, rfl⟩
  · exact ⟨fun hst => hon (hwn hst), rfl, rfl, rfl, rfl, rfl⟩

theorem next_handleTimeout {k : ℕ} (hk : s.firing = some k) : next s .handleTimeout =
    some { s with firing := none, executed := s.executed || k = s.wait }.schedHandleTimeout := by
  rw [next, hk]

theorem next_insert {timed : Bool} (h : s.phase = .inserting timed) : next s .insert = some
    { s with phase := .waiting timed, waitingOn := true, state := .waiting, listed := true } := by
  rw [next, h]

theorem Invariant.handleTimeout (h : Invariant s) {k : ℕ} (hk : s.firing = some k)
    (hok : InTime s .handleTimeout) :
    Invariant { s with firing := none, executed := s.executed || k = s.wait }.schedHandleTimeout := by
  obtain ⟨hst, hph, hwt, hqd, hfr, hec⟩ := handleTimeout_state
    (s := { s with firing := none, executed := s.executed || k = s.wait }) h.waiting
  refine ⟨fun hs => absurd hs hst, fun k' hk' => ?_, fun k' hk' => ?_, fun he => ?_,
    fun hm => hst hm.2.1⟩
  · rw [Armed, hwt, hph]
    exact h.queued k' (hqd ▸ hk')
  · exact nomatch hfr ▸ hk'
  · rw [hph]
    rw [hec, Bool.or_eq_true, decide_eq_true_iff] at he
    rcases he with he | rfl
    · exact h.joined he
    · obtain ⟨har, hun⟩ := (h.firing _ hk).2 rfl
      refine ⟨har, fun timed => ?_⟩
      cases timed with
      | true => exact hok rfl hk
      | false => exact hun

theorem Armed.move {k : ℕ} (h : Armed s k) (hwt : s'.wait = s.wait) (har : s'.phase ≠ .arming)
    (hun : s'.phase ≠ .inserting false) : Armed s' k :=
  ⟨hwt ▸ h.1, fun _ => ⟨har, hun⟩⟩

theorem Invariant.step (h : Invariant s) {e : Event} (hok : InTime s e)
    (hn : next s e = some s') : Invariant s' := by
  cases e with
  | begin timeout =>
    obtain ⟨-, hs'⟩ := ite_none_right_eq_some.mp hn
    obtain rfl := some.inj hs'
    -- What was armed before is armed for an earlier wait.
    have hlt : ∀ k, Armed s k → k ≤ s.wait + 1 ∧ k ≠ s.wait + 1 := fun k hk =>
      ⟨Nat.le_succ_of_le hk.1, (Nat.lt_succ_of_le hk.1).ne⟩
    refine ⟨h.waiting, fun k hk => ?_, fun k hk => ?_, nofun, fun hm => nomatch hm.1⟩
    · exact ⟨(hlt k (h.queued k hk)).1, fun heq => absurd heq (hlt k (h.queued k hk)).2⟩
    · exact ⟨(hlt k (h.firing k hk)).1, fun heq => absurd heq (hlt k (h.firing k hk)).2⟩
  | arm =>
    obtain ⟨hph, hs'⟩ := ite_none_right_eq_some.mp hn
    obtain rfl := some.inj hs'
    have hnt : s.executed ≠ true := fun he => (h.joined he).1 hph
    refine ⟨h.waiting, fun k hk => ?_, fun k hk => (h.firing k hk).move rfl nofun nofun,
      fun he => absurd he hnt, fun hm => hnt hm.1⟩
    obtain rfl := some.inj hk
    exact ⟨Nat.le_refl _, fun _ => ⟨nofun, nofun⟩⟩
  | insert =>
    rw [next] at hn
    split at hn
    · rename_i timed hph
      obtain rfl := some.inj hn
      have hnt : s.executed ≠ true := fun he => (h.joined he).2 timed hph
      exact ⟨fun _ => rfl, fun k hk => (h.queued k hk).move rfl nofun nofun, fun k hk => (h.firing k
        hk).move rfl nofun nofun, fun he => absurd he hnt, fun hm => hnt hm.1⟩
    · exact nomatch hn
  | resume =>
    rw [next] at hn
    split at hn
    · obtain ⟨-, hs'⟩ := ite_none_right_eq_some.mp hn
      obtain rfl := some.inj hs'
      exact ⟨nofun, fun k hk => (h.queued k hk).move rfl nofun nofun, fun k hk => (h.firing k
        hk).move rfl nofun nofun, fun _ => ⟨nofun, nofun⟩, fun hm => nomatch hm.2.1⟩
    · exact nomatch hn
  | cancel =>
    rw [next] at hn
    split at hn
    · rename_i timed _
      obtain rfl := some.inj hn
      cases timed <;> exact ⟨h.waiting, nofun, fun k hk => (h.firing k hk).move rfl nofun nofun,
        fun _ => ⟨nofun, nofun⟩, h.heard⟩
    · exact nomatch hn
  | check =>
    obtain ⟨-, hs'⟩ := ite_none_right_eq_some.mp hn
    obtain rfl := some.inj hs'
    exact ⟨h.waiting, fun k hk => (h.queued k hk).move rfl nofun nofun,
      fun k hk => (h.firing k hk).move rfl nofun nofun, fun _ => ⟨nofun, nofun⟩, h.heard⟩
  | notify =>
    obtain ⟨-, hs'⟩ := ite_none_right_eq_some.mp hn
    obtain rfl := some.inj hs'
    exact ⟨h.waiting, h.queued, h.firing, h.joined, fun hm => nomatch hm.2.2⟩
  | ready =>
    obtain ⟨-, hs'⟩ := ite_none_right_eq_some.mp hn
    obtain rfl := some.inj hs'
    exact ⟨nofun, h.queued, h.firing, h.joined, fun hm => nomatch hm.2.1⟩
  | notifyThread =>
    obtain rfl := some.inj hn
    exact h.notifyThread
  | callout =>
    rw [next] at hn
    split at hn
    · rename_i k hqd _
      obtain rfl := some.inj hn
      refine ⟨h.waiting, nofun, fun k' hk' => ?_, h.joined, h.heard⟩
      obtain rfl := some.inj hk'
      exact h.queued k hqd
    · exact nomatch hn
  | handleTimeout =>
    rw [next] at hn
    split at hn
    · rename_i k hk
      obtain rfl := some.inj hn
      exact h.handleTimeout hk hok
    · exact nomatch hn

end Steps

/-- No timeout is missed while the handlers stay out of the gap between arming and joining, and
there the thread's next step misses it. -/
theorem timeout_not_missed {s : State} (h : Runs.Reaches next InTime initial s) :
    ¬ Missed s ∧ ∀ e s₁, ¬ InTime s e → next s e = some s₁ →
      ∃ s₂, next s₁ .insert = some s₂ ∧ Missed s₂ := by
  have hiv : Invariant s :=
    h.invariant Invariant invariant_initial fun s e s' hs hok hn => hs.step hok hn
  refine ⟨hiv.heard, fun e s₁ hla hn => ?_⟩
  simp only [InTime, Classical.not_imp, not_not] at hla
  obtain ⟨rfl, hfr, hph⟩ := hla
  have hfi := handleTimeout_state
    (s := { s with firing := none, executed := s.executed || s.wait = s.wait }) hiv.waiting
  obtain rfl := some.inj ((next_handleTimeout hfr).symm.trans hn)
  obtain ⟨-, hph', -, -, -, hec⟩ := hfi
  refine ⟨_, next_insert (hph'.trans hph), hec.trans ?_, rfl, rfl⟩
  simp

theorem timeout_not_missed_ended : ∃ s, s.timedOut = true ∧ ¬ Missed s := by
  have hrn : (Runs.run next InTime initial [.begin 1, .arm, .insert, .callout, .handleTimeout,
      .resume, .cancel, .check]).map State.timedOut = some true := by decide
  obtain ⟨s, hs, hto⟩ := map_eq_some_iff.mp hrn
  exact ⟨s, hto, (timeout_not_missed (Runs.run_reaches hs)).1⟩

/-- The handler runs between the arming and the insertion. -/
theorem timeout_missed : ∃ s, Runs.Reaches next (fun _ _ => True) initial s ∧ Missed s := by
  have hrn : ((Runs.run next (fun _ _ => True) initial [.begin 1, .arm, .callout, .handleTimeout,
      .insert]).map fun s => decide (Missed s)) = some true := by decide
  obtain ⟨s, hs, hms⟩ := map_eq_some_iff.mp hrn
  exact ⟨s, Runs.run_reaches hs, of_decide_eq_true hms⟩

end TimedWait
