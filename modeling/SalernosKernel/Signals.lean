import SalernosKernel.BitMask

/-! # Signals

The threads of one process with their pending and masked signals. A step is what runs under one
hold of the process's `signal_lock`: a thread that dispatches a stop signal leaves the lock before
it joins `stop_waitlist`, and takes it again once it has been woken. -/
namespace Signals

open BitMask

abbrev Mask := BitVec 64

abbrev Signal := Fin 64

def ofNumber (n : ℕ) : Signal := Fin.ofNat 64 (n - 1)

def SIGKILL : Signal := ofNumber 9
def SIGCHLD : Signal := ofNumber 17
def SIGCONT : Signal := ofNumber 18

def SA_KILL : ℕ := 0x01
def SA_CORE : ℕ := 0x02
def SA_STOP : ℕ := 0x04
def SA_TTYSTOP : ℕ := 0x08
def SA_IGNORE : ℕ := 0x10
def SA_CONT : ℕ := 0x20

/-- `SignalProperties` by number; the array ends with `SIGSYS`, which is 31. -/
def signalTable : List ℕ :=
  [0,
    SA_KILL, -- SIGHUP
    SA_KILL, -- SIGINT
    SA_KILL ||| SA_CORE, -- SIGQUIT
    SA_KILL ||| SA_CORE, -- SIGILL
    SA_KILL ||| SA_CORE, -- SIGTRAP
    SA_KILL ||| SA_CORE, -- SIGABRT
    SA_KILL ||| SA_CORE, -- SIGBUS
    SA_KILL ||| SA_CORE, -- SIGFPE
    SA_KILL, -- SIGKILL
    SA_KILL, -- SIGUSR1
    SA_KILL ||| SA_CORE, -- SIGSEGV
    SA_KILL, -- SIGUSR2
    SA_KILL, -- SIGPIPE
    SA_KILL, -- SIGALRM
    SA_KILL, -- SIGTERM
    0,
    SA_IGNORE, -- SIGCHLD
    SA_IGNORE ||| SA_CONT, -- SIGCONT
    SA_STOP, -- SIGSTOP
    SA_STOP ||| SA_TTYSTOP, -- SIGTSTP
    SA_STOP ||| SA_TTYSTOP, -- SIGTTIN
    SA_STOP ||| SA_TTYSTOP, -- SIGTTOU
    SA_IGNORE, -- SIGURG
    SA_KILL, -- SIGXCPU
    SA_KILL, -- SIGXFSZ
    SA_KILL, -- SIGVTALRM
    SA_KILL, -- SIGPROF
    SA_IGNORE, -- SIGWINCH
    SA_IGNORE, -- SIGIO
    0,
    SA_KILL ||| SA_CORE] -- SIGSYS

/-- Signals above 31 are looked up past the end of the array, where `past` is found. -/
def signalProperties (past : ℕ → ℕ) (sig : Signal) : ℕ :=
  (signalTable[sig.val + 1]?).getD (past (sig.val + 1))

inductive Action where
  | dfl
  | ign
  | handle
  deriving DecidableEq

structure Sigaction where
  action : Action
  nodefer : Bool
  resethand : Bool
  mask : Mask
  deriving DecidableEq

inductive Waitlist where
  | stop
  | other
  deriving DecidableEq

inductive Activity where
  | ready
  | running
  | waiting (on : Waitlist)
  deriving DecidableEq

inductive Pc where
  | outside
  | stopping
  | stopped
  | terminating
  deriving DecidableEq

structure Thread where
  pending : Mask
  masked : Mask
  activity : Activity
  pc : Pc
  deriving DecidableEq

structure Proc where
  threads : List Thread
  pending : Mask
  sigaction : Signal → Option Sigaction
  stopSignal : Option Signal
  exited : Bool

def Thread.notify (t : Thread) : Thread :=
  match t.activity with
  | .waiting _ => { t with activity := .ready }
  | _ => t

def Accepts (stop : Option Signal) (sig : Signal) (t : Thread) : Prop :=
  ¬ Has t.masked sig ∧ (stop = none ∨ sig = SIGCONT)
  deriving Decidable

/-- The signal is put down as pending before the thread is known to accept it. -/
def sendToThread (stop : Option Signal) (sig : Signal) (t : Thread) : Thread :=
  let t' := { t with pending := insert t.pending sig }
  if Accepts stop sig t then t'.notify else t'

def sendLoop (stop : Option Signal) (sig : Signal) : List Thread → List Thread × Bool
  | [] => ([], false)
  | t :: ts =>
    if Accepts stop sig t then (sendToThread stop sig t :: ts, true)
    else
      let rest := sendLoop stop sig ts
      (sendToThread stop sig t :: rest.1, rest.2)

def sendToProc (p : Proc) (sig : Signal) : Proc :=
  if p.exited then p
  else
    let sent := sendLoop p.stopSignal sig p.threads
    { p with
      threads := sent.1
      pending := if sent.2 then p.pending else insert p.pending sig }

/-- `IS_VALID_SIGNAL` leaves out number 64. -/
def comIpcSignalSendToProc (p : Proc) (sig : Signal) : Proc :=
  if sig.val + 1 < 64 then sendToProc p sig else p

def Proc.modifyThread (p : Proc) (i : ℕ) (f : Thread → Thread) : Proc :=
  { p with threads := p.threads.modify i f }

/-- What is sent to the parent is left out. -/
def comSysProcStopNolock (p : Proc) (sig : Signal) : Proc :=
  match p.stopSignal with
  | some _ => p
  | none =>
    { p with stopSignal := some sig, threads := p.threads.map (sendToThread (some sig) sig) }

def comIpcSignalCheckNolock (t : Thread) : Option Signal := lowest (t.pending &&& ~~~t.masked)

def enterHandler (p : Proc) (i : ℕ) (sig : Signal) (sa : Sigaction) : Proc :=
  let p := p.modifyThread i fun t =>
    let masked := t.masked ||| sa.mask
    { t with masked := if sa.nodefer then masked else insert masked sig }
  if sa.resethand then
    { p with sigaction := Function.update p.sigaction sig (some { sa with action := .dfl }) }
  else p

def Default (p : Proc) (sig : Signal) : Prop :=
  ∀ sa, p.sigaction sig = some sa → sa.action = .dfl

instance (p : Proc) (sig : Signal) : Decidable (Default p sig) :=
  match h : p.sigaction sig with
  | none => isTrue fun sa hsa => absurd (h.symm.trans hsa) (by simp)
  | some sa => decidable_of_iff (sa.action = .dfl) (by simp [Default, h])

def act (past : ℕ → ℕ) (p : Proc) (i : ℕ) (sig : Signal) : Proc :=
  let props := signalProperties past sig
  if Default p sig ∧ props &&& SA_KILL ≠ 0 then
    { p with stopSignal := some sig }.modifyThread i fun t => { t with pc := .terminating }
  else if Default p sig ∧ props &&& SA_STOP ≠ 0 then
    (comSysProcStopNolock p sig).modifyThread i fun t =>
      { t with pending := erase t.pending sig, pc := .stopping }
  else if Default p sig ∧ props &&& SA_IGNORE ≠ 0 then p
  else
    match p.sigaction sig with
    | none => p
    | some sa => if sa.action = .ign then p else enterHandler p i sig sa

/-- `com_ipc_signal_dispatch` by thread `i`, up to where it first leaves the lock, and the signal
it has taken. -/
def comIpcSignalDispatch (past : ℕ → ℕ) (p : Proc) (i : ℕ) : Option Signal × Proc :=
  match (p.threads[i]?).bind comIpcSignalCheckNolock with
  | none => (none, p)
  | some sig =>
    (some sig,
      act past (p.modifyThread i fun t => { t with pending := erase t.pending sig }) i sig)

def SIG_BLOCK : ℤ := 0
def SIG_UNBLOCK : ℤ := 1
def SIG_SETMASK : ℤ := 2

/-- No mask is returned for a `how` that is not known. -/
def comIpcSignalSetMaskNolock (mask : Mask) (how : ℤ) (set : Option Mask) : Option Mask :=
  match set with
  | none => some mask
  | some set =>
    if how = SIG_BLOCK then some (mask ||| set)
    else if how = SIG_SETMASK then some set
    else if how = SIG_UNBLOCK then some (mask &&& ~~~set)
    else none

def comIpcSignalSetMask (p : Proc) (i : ℕ) (how : ℤ) (set : Option Mask) : Proc :=
  p.modifyThread i fun t =>
    { t with masked := (comIpcSignalSetMaskNolock t.masked how set).getD t.masked }

variable {past : ℕ → ℕ} {p : Proc} {t u : Thread} {ts : List Thread} {stop : Option Signal}
  {sig s : Signal} {i j : ℕ}

@[simp] theorem notify_pending : t.notify.pending = t.pending := by
  unfold Thread.notify
  split <;> rfl

@[simp] theorem notify_masked : t.notify.masked = t.masked := by
  unfold Thread.notify
  split <;> rfl

@[simp] theorem notify_pc : t.notify.pc = t.pc := by
  unfold Thread.notify
  split <;> rfl

@[simp] theorem sendToThread_pending :
    (sendToThread stop sig t).pending = insert t.pending sig := by
  unfold sendToThread
  split <;> simp

@[simp] theorem sendToThread_masked : (sendToThread stop sig t).masked = t.masked := by
  unfold sendToThread
  split <;> simp

@[simp] theorem sendToThread_pc : (sendToThread stop sig t).pc = t.pc := by
  unfold sendToThread
  split <;> simp

theorem activity_sendToThread_running (h : t.activity = .running) :
    (sendToThread stop sig t).activity = .running := by
  unfold sendToThread
  split <;> simp [Thread.notify, h]

theorem activity_of_accepts (h : Accepts stop sig t) :
    (sendToThread stop sig t).activity = .ready ∨ (sendToThread stop sig t).activity = .running := by
  unfold sendToThread
  rw [if_pos h]
  unfold Thread.notify
  cases t.activity <;> simp

theorem activity_of_not_accepts (h : ¬ Accepts stop sig t) :
    (sendToThread stop sig t).activity = t.activity := by
  unfold sendToThread
  rw [if_neg h]

def NoneBefore (stop : Option Signal) (sig : Signal) (ts : List Thread) (i : ℕ) : Prop :=
  ∀ j < i, ∀ u, ts[j]? = some u → ¬ Accepts stop sig u

theorem noneBefore_succ : NoneBefore stop sig (t :: ts) (i + 1) ↔
    ¬ Accepts stop sig t ∧ NoneBefore stop sig ts i := by
  constructor
  · intro h
    exact ⟨h 0 (Nat.succ_pos i) t rfl, fun j hj u hu => h (j + 1) (Nat.succ_lt_succ hj) u (by simpa)⟩
  · rintro ⟨ht, hts⟩ j hj u hu
    cases j with
    | zero =>
      obtain rfl : t = u := by simpa using hu
      exact ht
    | succ j => exact hts j (Nat.lt_of_succ_lt_succ hj) u (by simpa using hu)

theorem sendLoop_of_noneBefore (h : NoneBefore stop sig ts i) :
    (sendLoop stop sig ts).1[i]? = (ts[i]?).map (sendToThread stop sig) := by
  induction ts generalizing i with
  | nil => rfl
  | cons t ts ih =>
    cases i with
    | zero =>
      unfold sendLoop
      split <;> rfl
    | succ i =>
      obtain ⟨ht, hts⟩ := noneBefore_succ.mp h
      simp [sendLoop, ht, ih hts]

theorem sendLoop_of_not_noneBefore (h : ¬ NoneBefore stop sig ts i) :
    (sendLoop stop sig ts).1[i]? = ts[i]? := by
  induction ts generalizing i with
  | nil => rfl
  | cons t ts ih =>
    cases i with
    | zero => exact absurd (fun j hj => absurd hj (Nat.not_lt_zero j)) h
    | succ i =>
      by_cases ht : Accepts stop sig t
      · simp [sendLoop, ht]
      · have hts : ¬ NoneBefore stop sig ts i := fun hts => h (noneBefore_succ.mpr ⟨ht, hts⟩)
        simp [sendLoop, ht, ih hts]

theorem getElem?_modifyThread (f : Thread → Thread) : (p.modifyThread i f).threads[j]? =
    (p.threads[j]?).map fun t => if j = i then f t else t := by
  unfold Proc.modifyThread
  by_cases h : j = i
  · simp [h]
  · simp [h, Ne.symm h]

theorem check_eq_some : comIpcSignalCheckNolock t = some sig ↔
    (Has t.pending sig ∧ ¬ Has t.masked sig) ∧
      ∀ s < sig, ¬ (Has t.pending s ∧ ¬ Has t.masked s) := by
  simp only [comIpcSignalCheckNolock, lowest_eq_some, has_and, has_not]

theorem check_eq_none : comIpcSignalCheckNolock t = none ↔
    ∀ s, ¬ (Has t.pending s ∧ ¬ Has t.masked s) := by
  simp only [comIpcSignalCheckNolock, lowest_eq_none, has_and, has_not]

structure Effect (i : ℕ) (sig : Signal) (j : ℕ) (t t' : Thread) : Prop where
  pending_of_ne : ∀ s, s ≠ sig → (Has t'.pending s ↔ Has t.pending s)
  pending_kept : j ≠ i → Has t.pending sig → Has t'.pending sig
  pending_own : j = i → ¬ Has t.pending sig → ¬ Has t'.pending sig
  outside : t'.pc = .outside → t.pc = .outside
  pc_kept : j ≠ i → t'.pc = t.pc

theorem Effect.refl (i : ℕ) (sig : Signal) (j : ℕ) (t : Thread) : Effect i sig j t t :=
  ⟨fun _ _ => Iff.rfl, fun _ => id, fun _ => id, id, fun _ => rfl⟩

theorem modifyThread_effect (f : Thread → Thread) (h : ∀ t, Effect i sig i t (f t)) (p : Proc)
    (j : ℕ) : ∃ g, (p.modifyThread i f).threads[j]? = (p.threads[j]?).map g ∧
      ∀ t, Effect i sig j t (g t) := by
  refine ⟨fun t => if j = i then f t else t, getElem?_modifyThread f, fun t => ?_⟩
  by_cases hj : j = i
  · subst hj
    simpa using h t
  · simpa [hj] using Effect.refl i sig j t

theorem getElem?_stopNolock (p : Proc) (sig : Signal) (j : ℕ) :
    (comSysProcStopNolock p sig).threads[j]? = (p.threads[j]?).map fun t =>
      if p.stopSignal = none then sendToThread (some sig) sig t else t := by
  unfold comSysProcStopNolock
  cases p.stopSignal with
  | some s => simp
  | none => simp

theorem stopNolock_exited (p : Proc) (sig : Signal) :
    (comSysProcStopNolock p sig).exited = p.exited := by
  unfold comSysProcStopNolock
  split <;> rfl

theorem stopNolock_sigaction (p : Proc) (sig : Signal) :
    (comSysProcStopNolock p sig).sigaction = p.sigaction := by
  unfold comSysProcStopNolock
  split <;> rfl

theorem stopNolock_stopSignal (p : Proc) (sig : Signal) :
    (comSysProcStopNolock p sig).stopSignal = some (p.stopSignal.getD sig) := by
  unfold comSysProcStopNolock
  cases h : p.stopSignal with
  | some s => simpa using h
  | none => rfl

theorem enterHandler_threads (p : Proc) (i : ℕ) (sig : Signal) (sa : Sigaction) :
    ∃ f : Mask → Mask, (enterHandler p i sig sa).threads =
      (p.modifyThread i fun t => { t with masked := f t.masked }).threads := by
  refine ⟨fun m => if sa.nodefer then m ||| sa.mask else insert (m ||| sa.mask) sig, ?_⟩
  unfold enterHandler
  cases sa.resethand <;> rfl

theorem act_effect (past : ℕ → ℕ) (p : Proc) (i : ℕ) (sig : Signal) (j : ℕ) :
    ∃ f, (act past p i sig).threads[j]? = (p.threads[j]?).map f ∧ ∀ t, Effect i sig j t (f t) := by
  have hsm : ∃ f, p.threads[j]? = (p.threads[j]?).map f ∧ ∀ t, Effect i sig j t (f t) :=
    ⟨id, by simp, Effect.refl i sig j⟩
  unfold act
  dsimp only
  split
  · -- The process is about to be terminated.
    refine modifyThread_effect _ (fun t => ?_) { p with stopSignal := some sig } j
    exact ⟨fun _ _ => Iff.rfl, fun _ => id, fun _ => id, fun h => by simp at h, fun h => absurd rfl h⟩
  · split
    · -- All threads get the stop signal; the one that stops clears it again.
      refine ⟨_, (getElem?_modifyThread _).trans
        ((congrArg _ (getElem?_stopNolock p sig j)).trans (Option.map_map _ _ _)), fun t => ?_⟩
      by_cases hj : j = i
      · subst hj
        refine ⟨fun s hs => ?_, fun h => absurd rfl h, fun _ _ => ?_, fun h => ?_,
          fun h => absurd rfl h⟩
        · by_cases hst : p.stopSignal = none <;> simp [hst, hs]
        · simp
        · simp at h
      · refine ⟨fun s hs => ?_, fun _ hp => ?_, fun h => absurd h hj, fun h => ?_, fun _ => ?_⟩
        · by_cases hst : p.stopSignal = none <;> simp [hst, hs, hj]
        · by_cases hst : p.stopSignal = none <;> simp [hst, hp, hj]
        · by_cases hst : p.stopSignal = none <;> simpa [hst, hj] using h
        · by_cases hst : p.stopSignal = none <;> simp [hst, hj]
    · split
      · exact hsm
      · split
        · exact hsm
        · rename_i sa _
          split
          · exact hsm
          · obtain ⟨f, hf⟩ := enterHandler_threads p i sig sa
            rw [hf]
            refine modifyThread_effect _ (fun t => ?_) p j
            exact ⟨fun _ _ => Iff.rfl, fun _ => id, fun _ => id, id, fun h => absurd rfl h⟩

theorem dispatch_none (ht : p.threads[i]? = some t) (hch : comIpcSignalCheckNolock t = none) :
    comIpcSignalDispatch past p i = (none, p) := by
  simp [comIpcSignalDispatch, ht, hch]

theorem dispatch_some (ht : p.threads[i]? = some t) (hch : comIpcSignalCheckNolock t = some sig) :
    comIpcSignalDispatch past p i = (some sig,
      act past (p.modifyThread i fun t => { t with pending := erase t.pending sig }) i sig) := by
  simp [comIpcSignalDispatch, ht, hch]

theorem dispatch_effect (past : ℕ → ℕ) (ht : p.threads[i]? = some t)
    (hch : comIpcSignalCheckNolock t = some sig) (j : ℕ) :
    ∃ f, (comIpcSignalDispatch past p i).2.threads[j]? = (p.threads[j]?).map f ∧
      ∀ t, Effect i sig j t (f t) ∧ (j = i → ¬ Has (f t).pending sig) := by
  obtain ⟨f, hf, hef⟩ :=
    act_effect past (p.modifyThread i fun t => { t with pending := erase t.pending sig }) i sig j
  rw [getElem?_modifyThread, Option.map_map] at hf
  refine ⟨_, by rw [dispatch_some ht hch]; exact hf, fun t => ?_⟩
  by_cases hj : j = i
  · have he := hef { t with pending := erase t.pending sig }
    simp only [Function.comp_apply, hj, if_true] at he ⊢
    have hon := he.pending_own rfl (by simp)
    refine ⟨⟨fun s hs => ?_, fun h => absurd rfl h, fun _ _ => hon, he.outside,
      fun h => absurd rfl h⟩, fun _ => hon⟩
    rw [he.pending_of_ne s hs]
    simp [hs]
  · simp only [Function.comp_apply, hj, if_false]
    exact ⟨hef t, fun h => h.elim⟩

theorem send_exited (p : Proc) (sig : Signal) :
    (comIpcSignalSendToProc p sig).exited = p.exited := by
  unfold comIpcSignalSendToProc sendToProc
  split
  · split <;> rfl
  · rfl

theorem act_exited (past : ℕ → ℕ) (p : Proc) (i : ℕ) (sig : Signal) :
    (act past p i sig).exited = p.exited := by
  unfold act enterHandler
  dsimp only
  split
  · rfl
  · split
    · exact stopNolock_exited p sig
    · repeat' split
      all_goals rfl

theorem dispatch_exited (past : ℕ → ℕ) (p : Proc) (i : ℕ) :
    (comIpcSignalDispatch past p i).2.exited = p.exited := by
  unfold comIpcSignalDispatch
  split
  · rfl
  · exact act_exited past _ i _

end Signals
