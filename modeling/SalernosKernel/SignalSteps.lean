import SalernosKernel.Runs
import SalernosKernel.Signals

/-! # Steps of a process that gets signals

Everything that writes the masks and pending signals of the threads of a process, and how a stop
goes on after it has left the lock. -/
namespace SignalSteps

open BitMask Signals

inductive Event where
  | sigprocmask (i : ℕ) (how : ℤ) (set : Option Mask)
  | sigaction (sig : Signal) (act : Sigaction)
  /-- The mask comes from the frame on the stack of the thread. -/
  | sigreturn (i : ℕ) (mask : Mask)
  | send (sig : Signal)
  | sendToThread (i : ℕ) (sig : Signal)
  | dispatch (i : ℕ)
  | join (i : ℕ)
  | resume (i : ℕ)
  | terminate (i : ℕ)
  | schedule (i : ℕ)
  | preempt (i : ℕ)
  | sleep (i : ℕ)
  | wakeUp (i : ℕ)
  deriving DecidableEq

def At (p : Proc) (i : ℕ) (P : Thread → Prop) : Prop := ∃ t, p.threads[i]? = some t ∧ P t

def Enabled (p : Proc) : Event → Prop
  | .sigprocmask i _ _ | .sigreturn i _ | .dispatch i | .sleep i =>
    At p i fun t => t.activity = .running ∧ t.pc = .outside
  | .join i => At p i fun t => t.activity = .running ∧ t.pc = .stopping
  | .resume i => At p i fun t => t.activity = .running ∧ t.pc = .stopped
  | .terminate i => At p i fun t => t.activity = .running ∧ t.pc = .terminating
  | .schedule i => At p i fun t => t.activity = .ready
  | .preempt i => At p i fun t => t.activity = .running
  | .wakeUp i => At p i fun t => t.activity = .waiting .other
  | .sigaction .. | .send _ | .sendToThread .. => True

instance (p : Proc) (i : ℕ) (P : Thread → Prop) [DecidablePred P] : Decidable (At p i P) :=
  match h : p.threads[i]? with
  | none => isFalse (by simp [At, h])
  | some t => decidable_of_iff (P t) (by simp [At, h])

instance (p : Proc) : DecidablePred (Enabled p)
  | .sigprocmask .. | .sigreturn .. | .dispatch _ | .sleep _ | .join _ | .resume _ | .terminate _
  | .schedule _ | .preempt _ | .wakeUp _ => inferInstanceAs (Decidable (At p _ _))
  | .sigaction .. | .send _ | .sendToThread .. => inferInstanceAs (Decidable True)

def leaveStop (t : Thread) : Thread :=
  if t.activity = .waiting .stop then { t with activity := .ready } else t

/-- `com_ipc_signal_dispatch` after the wait on `stop_waitlist`; no result is a failed
assertion. -/
def resume (p : Proc) (i : ℕ) : Option Proc :=
  match p.threads[i]? with
  | none => some p
  | some t =>
    if Has t.pending SIGCONT then
      let p := p.modifyThread i fun t =>
        { t with pending := erase t.pending SIGCONT, pc := .outside }
      match p.stopSignal with
      | none => some p
      | some _ => some { p with stopSignal := none, threads := p.threads.map leaveStop }
    else none

def setActivity (a : Activity) (t : Thread) : Thread := { t with activity := a }

def next (past : ℕ → ℕ) (p : Proc) : Event → Option Proc
  | .sigprocmask i how set => some (comIpcSignalSetMask p i how set)
  | .sigaction sig act => some { p with sigaction := Function.update p.sigaction sig (some act) }
  | .sigreturn i mask => some (p.modifyThread i fun t => { t with masked := mask })
  | .send sig => some (comIpcSignalSendToProc p sig)
  | .sendToThread i sig => some (p.modifyThread i (Signals.sendToThread p.stopSignal sig))
  | .dispatch i => some (comIpcSignalDispatch past p i).2
  | .join i => some (p.modifyThread i fun t => { t with activity := .waiting .stop, pc := .stopped })
  | .resume i => resume p i
  | .terminate _ => some { p with threads := [], exited := true }
  | .schedule i => some (p.modifyThread i (setActivity .running))
  | .preempt i | .wakeUp i => some (p.modifyThread i (setActivity .ready))
  | .sleep i => some (p.modifyThread i (setActivity (.waiting .other)))

end SignalSteps
