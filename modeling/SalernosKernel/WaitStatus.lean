import SalernosKernel.WaitPid

/-! # The status of a child

The steps under a child's `signal_lock` that `waitpid_proc` can see: `stop_signal` is set by stops
and by deadly signals, for the latter before the process exits. -/
namespace WaitStatus

open ProcessTable (Process)
open Signals WaitPid

/-- A child with what has happened to it: the stop in effect and how often it was reported, the
deadly signals taken, and the one by which it was killed. -/
structure State where
  child : Process
  stopped : Option Signal := none
  reports : ℕ := 0
  kills : List Signal := []
  killedBy : Option Signal := none

inductive Event where
  | stop (sig : Signal)
  | resume
  | kill (sig : Signal)
  | exit (sig : Option Signal) (status : ℤ)
  | waitpid (caller : Thread) (flags : BitVec 32)

def setStop (child : Process) (stop : Option Signal) : Process :=
  { child with signals := { child.signals with stopSignal := stop } }

/-- A thread that exits has called `exit`, or it has taken a deadly signal. There is no other thread
then, and it takes no more signals. -/
def next (past : ℕ → ℕ) (s : State) : Event → Option State
  | .stop sig =>
    if s.child.signals.exited ∨ signalProperties past sig &&& SA_KILL ≠ 0 ∨
        signalProperties past sig &&& SA_STOP = 0 then none
    else if s.child.signals.stopSignal.isSome then some s
    else some { s with
      child := { s.child with
        stopNotified := false, signals := comSysProcStopNolock s.child.signals sig }
      stopped := some sig
      reports := 0 }
  | .resume =>
    if s.child.signals.exited then none
    else if s.child.signals.stopSignal.isSome then
      some { s with child := { setStop s.child none with stopNotified := false }, stopped := none }
    else some { s with stopped := none }
  | .kill sig =>
    if s.child.signals.exited ∨ signalProperties past sig &&& SA_KILL = 0 then none
    else some { s with child := setStop s.child (some sig), stopped := none, kills := sig :: s.kills }
  | .exit sig status =>
    if s.child.signals.exited ∨ ∃ k, sig = some k ∧ (k ∉ s.kills ∨ status ≠ 0) then none
    else some { s with
      child := { s.child with
        exitStatus := status, signals := { s.child.signals with exited := true } }
      stopped := none
      killedBy := sig }
  | .waitpid caller flags =>
    match waitpidRound caller s.child flags with
    | (.stopped _, child) => some { s with child := child, reports := s.reports + 1 }
    | (_, child) => some { s with child := child }

/-- No wait and no continuation between a deadly signal and the exit, which finds in `stop_signal`
why it is made. -/
def Orderly (s : State) : Event → Prop
  | .stop _ | .kill _ => True
  | .resume => s.kills = []
  | .exit sig _ => s.child.signals.stopSignal = sig
  | .waitpid .. => s.kills = [] ∨ s.child.signals.exited

instance (s : State) : DecidablePred (Orderly s)
  | .stop _ | .kill _ => inferInstanceAs (Decidable True)
  | .resume => inferInstanceAs (Decidable (_ = _))
  | .exit .. => inferInstanceAs (Decidable (_ = _))
  | .waitpid .. => inferInstanceAs (Decidable (_ ∨ _))

def Truthful (past : ℕ → ℕ) (s : State) : Round → Prop
  | .stopped status => s.reports = 0 ∧ ∃ sig, s.stopped = some sig ∧
      signalProperties past sig &&& SA_STOP ≠ 0 ∧ status = 0x7f ||| (sig.val + 1) <<< 8
  | .exited status => ∀ sig : Signal, status % 128 = sig.val + 1 ↔ s.killedBy = some sig
  | _ => True

structure Inv (past : ℕ → ℕ) (s : State) : Prop where
  live : s.child.signals.exited = false → s.kills = [] → s.child.signals.stopSignal = s.stopped
  once : s.stopped.isSome → s.child.stopNotified = false → s.reports = 0
  cause : ∀ sig, s.stopped = some sig → signalProperties past sig &&& SA_STOP ≠ 0
  ended : s.child.signals.exited → s.child.signals.stopSignal = s.killedBy

variable {past : ℕ → ℕ} {s s' : State} {e : Event}

theorem exitedStatus_mod (child : Process) : exitedStatus child % 128 =
    child.signals.stopSignal.elim 0 fun sig => sig.val + 1 := by
  have hsh : ∀ a : ℕ, a <<< 8 % 2 ^ 7 = 0 := by
    intro a
    rw [Nat.shiftLeft_eq]
    omega
  rw [exitedStatus, show 128 = 2 ^ 7 from rfl, Nat.or_mod_two_pow, hsh, Nat.zero_or]
  cases child.signals.stopSignal with
  | none => rfl
  | some sig =>
    have hlt := sig.isLt
    dsimp only [Option.elim_some]
    rw [show 0x7f = 2 ^ 7 - 1 from rfl, Nat.and_two_pow_sub_one_eq_mod]
    omega

theorem Inv.next (h : Inv past s) (hok : Orderly s e) (hn : next past s e = some s') :
    Inv past s' := by
  cases e with
  | stop sig =>
    simp only [next] at hn
    split_ifs at hn with hno hstop
    · cases hn
      exact h
    · have hnn : s.child.signals.stopSignal = none := by simpa using hstop
      cases hn
      refine ⟨fun _ _ => ?_, fun _ _ => rfl, fun k hk => ?_, fun hex => absurd ?_ hno⟩
      · simp only [comSysProcStopNolock, hnn]
      · cases hk
        exact fun hz => hno (.inr (.inr hz))
      · simp only [comSysProcStopNolock, hnn] at hex
        exact .inl hex
  | resume =>
    simp only [next] at hn
    split_ifs at hn with hex hstop
    · cases hn
      refine ⟨fun _ _ => rfl, fun hs => ?_, fun k hk => ?_, fun hex' => absurd hex' hex⟩
      · cases hs
      · cases hk
    · cases hn
      refine ⟨fun _ _ => by simpa using hstop, fun hs => ?_, fun k hk => ?_, h.ended⟩
      · cases hs
      · cases hk
  | kill sig =>
    simp only [next] at hn
    split_ifs at hn with hno
    cases hn
    refine ⟨fun _ hk => ?_, fun hs => ?_, fun k hk => ?_, fun hex => absurd (.inl hex) hno⟩
    · cases hk
    · cases hs
    · cases hk
  | exit sig status =>
    simp only [next] at hn
    split_ifs at hn with hno
    cases hn
    refine ⟨fun hex => ?_, fun hs => ?_, fun k hk => ?_, fun _ => hok⟩
    · cases hex
    · cases hs
    · cases hk
  | waitpid caller flags =>
    have hfn := found_round caller s.child flags
    simp only [next] at hn
    generalize waitpidRound caller s.child flags = r at hn hfn
    obtain ⟨round, child⟩ := r
    cases hfn with
    | stopped =>
      cases hn
      exact ⟨h.live, fun _ hf => Bool.noConfusion hf, h.cause, h.ended⟩
    | _ =>
      cases hn
      exact h

theorem Inv.truthful (h : Inv past s) (hok : s.kills = [] ∨ s.child.signals.exited)
    (caller : Thread) (flags : BitVec 32) :
    Truthful past s (waitpidRound caller s.child flags).1 := by
  have hwt : Truthful past s (doWait flags) := by
    unfold doWait
    split <;> trivial
  unfold waitpidRound
  split
  · trivial
  split
  · next hex =>
    intro sig
    rw [exitedStatus_mod, h.ended hex]
    cases s.killedBy with
    | none => simp
    | some k => simp [Fin.ext_iff]
  · next hex =>
    have hlv := h.live (Bool.eq_false_of_not_eq_true hex) (hok.resolve_right hex)
    split
    · exact hwt
    · next sig hsg =>
      rw [hlv] at hsg
      split
      · exact hwt
      · next hnt =>
        exact ⟨h.once (by rw [hsg]; rfl) (Bool.eq_false_of_not_eq_true hnt), sig, hsg,
          h.cause sig hsg, rfl⟩

/-- In an orderly run the status says what has happened. -/
theorem wait_status_truthful {past : ℕ → ℕ} {parent : ℕ} {s : State}
    {memory : Signal → Option Sigaction}
    (h : Runs.Reaches (next past) Orderly { child := Process.new parent memory } s)
    (caller : Thread) (flags : BitVec 32) (hok : Orderly s (.waitpid caller flags)) :
    Truthful past s (waitpidRound caller s.child flags).1 := by
  have hiv : Inv past s := by
    apply h.invariant (Inv past)
    · refine ⟨fun _ _ => rfl, fun hs => ?_, fun k hk => ?_, fun hex => ?_⟩
      · cases hs
      · cases hk
      · cases hex
    · intro s e s' hs hok hn
      exact hs.next hok hn
  exact hiv.truthful hok caller flags

def sampleThread : Thread := ⟨0, 0, .running, .outside⟩

def sampleStart : State := { child := Process.new 1 fun _ => none }

theorem wait_status_killed : ∃ s, s.child.signals.exited ∧ s.killedBy = some (ofNumber 9) ∧
    Truthful (fun _ => 0) s (waitpidRound sampleThread s.child 0).1 := by
  have hrn : (Runs.run (next fun _ => 0) Orderly sampleStart [.stop (ofNumber 19),
      .waitpid sampleThread 0, .resume, .kill (ofNumber 9), .exit (some (ofNumber 9)) 0]).map
      (fun s => (s.child.signals.exited, s.killedBy)) = some (true, some (ofNumber 9)) := by
    decide +kernel
  obtain ⟨s, hs, hed⟩ := Option.map_eq_some_iff.mp hrn
  obtain ⟨hex, hkl⟩ := Prod.mk.inj hed
  exact ⟨s, hex, hkl, wait_status_truthful (Runs.run_reaches hs) sampleThread 0 (.inr hex)⟩

/-- A child that is being killed is reported as stopped, and one that exits while it is stopped as
killed by the stop. -/
theorem wait_status_untrue :
    (Runs.run (next fun _ => 0) (fun _ _ => True) sampleStart [.kill (ofNumber 9)]).map
        (fun s => ((waitpidRound sampleThread s.child 0).1, s.stopped)) =
      some (.stopped 0x97f, none) ∧
    (Runs.run (next fun _ => 0) (fun _ _ => True) sampleStart
        [.stop (ofNumber 19), .exit none 0]).map
        (fun s => ((waitpidRound sampleThread s.child 0).1, s.killedBy)) =
      some (.exited 19, none) := by
  decide +kernel

end WaitStatus
