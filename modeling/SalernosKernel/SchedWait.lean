import SalernosKernel.Runs
import SalernosKernel.Threads

/-! # Waiting and waking

The waits, notifications and timeouts of `com/sys/sched.c` as interleavings of their critical
sections: of the wait lists, of `sched_lock` and of the run queues. Any number of threads wait, and
any number of calls notify them. `timed_wait_expired` is left out. -/
namespace SchedWait

open Threads List Option
open Function

/-- What a thread on the processor `c` is about to do. A thread that is not on one is off; between
`inserting` and the end of `leaving` it holds its own `sched_lock`. -/
inductive Phase where
  | off
  | running (c : ℕ)
  | inserting (c w : ℕ)
  | yielding (c : ℕ)
  | leaving (c next : ℕ)
  deriving DecidableEq

inductive Agent where
  | ready (queue : List ℕ)
  | removing (t w : ℕ)
  | queueing (t c : ℕ) (rest : List ℕ)
  | releasing (t : ℕ) (rest : List ℕ)
  deriving DecidableEq

inductive Holder where
  | self
  | agent (a : ℕ)
  deriving DecidableEq

structure State extends Sched where
  phase : ℕ → Phase
  lock : ℕ → Option Holder
  agent : ℕ → Agent
  waits : ℕ → ℕ
  wakes : ℕ → ℕ

inductive Event where
  | wait (t w : ℕ)
  | insert (t : ℕ)
  | yield (t : ℕ)
  | runqueue (t : ℕ)
  | switch (t : ℕ)
  | notify (a w : ℕ)
  | notifyAll (a w : ℕ)
  | notifyN (a w numWaiters : ℕ)
  | ready (a random : ℕ)
  | notifyThread (a t : ℕ)
  | timeout (a t : ℕ)
  | remove (a random : ℕ)
  | enqueue (a : ℕ)
  | release (a : ℕ)
  deriving DecidableEq

namespace State

variable (s : State)

def setPhase (t : ℕ) (phase : Phase) : State := { s with phase := update s.phase t phase }

def setLock (t : ℕ) (lock : Option Holder) : State :=
  { s with lock := update s.lock t lock }

def setAgent (a : ℕ) (agent : Agent) : State :=
  { s with agent := update s.agent a agent }

def take (a w n : ℕ) : Option State :=
  match s.agent a with
  | .ready [] => some ({ s with toSched := s.setWaitlist w ((s.waitlist w).drop n) }.setAgent a
      (.ready ((s.waitlist w).take n)))
  | _ => none

def comSysSchedNotifyThread (a t : ℕ) : Option State :=
  match s.agent a, s.lock t, (s.thread t).waitingOn with
  | .ready [], none, none => some s
  | .ready [], none, some w =>
    if (s.thread t).cpu = none then
      some ((s.setAgent a (.removing t w)).setLock t (some (.agent a)))
    else none
  | _, _, _ => none

end State

variable (idle : ℕ → ℕ)

/-- There is no next state if the event is not enabled, an assertion fails, or `TAILQ_REMOVE` is
applied to a queue that does not contain the thread. -/
def next (s : State) : Event → Option State
  | .wait t w =>
    match s.phase t, s.lock t with
    | .running c, none =>
      -- the idle thread only halts
      if t = idle c then none
      else (s.beginWait t w).map fun q =>
        ({ s with toSched := q }.setPhase t (.inserting c w)).setLock t (some .self)
    | _, _ => none
  | .insert t =>
    match s.phase t with
    | .inserting c w => some ({ s with
        toSched := s.insertWait t w
        waits := update s.waits t (s.waits t + 1) }.setPhase t (.yielding c))
    | _ => none
  | .yield t =>
    match s.phase t, s.lock t with
    | .running c, none => some ((s.setPhase t (.yielding c)).setLock t (some .self))
    | _, _ => none
  | .runqueue t =>
    match s.phase t with
    | .yielding c => (s.yieldSection idle c t).map fun
      | (q, none) => ({ s with toSched := q }.setPhase t (.running c)).setLock t none
      | (q, some n) => { s with toSched := q }.setPhase t (.leaving c n)
    | _ => none
  | .switch t =>
    match s.phase t with
    | .leaving c n => (s.switchTo c n).map fun q =>
        (({ s with toSched := q }.setPhase t .off).setPhase n (.running c)).setLock t none
    | _ => none
  | .notify a w => s.take a w 1
  | .notifyAll a w => s.take a w (s.waitlist w).length
  | .notifyN a w numWaiters => s.take a w numWaiters
  | .ready a random =>
    match s.agent a with
    | .ready (t :: rest) =>
      if s.lock t = none then
        (s.beginReady t).map fun q => ({ s with toSched := q }.setAgent a
          (.queueing t (s.readyCpu t random) rest)).setLock t (some (.agent a))
      else none
    | _ => none
  | .notifyThread a t => s.comSysSchedNotifyThread a t
  | .timeout a t => s.comSysSchedNotifyThread a t
  | .remove a random =>
    match s.agent a with
    | .removing t w =>
      if t ∈ s.waitlist w then
        ((s.setWaitlist w ((s.waitlist w).erase t)).beginReady t).map fun q =>
          { s with toSched := q }.setAgent a (.queueing t (s.readyCpu t random) [])
      else none
    | _ => none
  | .enqueue a =>
    match s.agent a with
    | .queueing t c rest => some ({ s with
        toSched := s.toSched.enqueue c t
        wakes := update s.wakes t (s.wakes t + 1) }.setAgent a (.releasing t rest))
    | _ => none
  | .release a =>
    match s.agent a with
    | .releasing t rest => some ((s.setAgent a (.ready rest)).setLock t none)
    | _ => none

inductive Takes (s : State) : Event → ℕ → ℕ → ℕ → Prop where
  | notify (a w : ℕ) : Takes s (.notify a w) a w 1
  | notifyAll (a w : ℕ) : Takes s (.notifyAll a w) a w (s.waitlist w).length
  | notifyN (a w n : ℕ) : Takes s (.notifyN a w n) a w n

inductive Aims : Event → ℕ → ℕ → Prop where
  | notifyThread (a t : ℕ) : Aims (.notifyThread a t) a t
  | timeout (a t : ℕ) : Aims (.timeout a t) a t

/-- What an event does, one constructor for each way it can go on. -/
inductive Does (s : State) : Event → State → Prop where
  | wait {t w c : ℕ} (hphase : s.phase t = .running c) (hlock : s.lock t = none)
      (hidle : t ≠ idle c) :
      Does s (.wait t w) { s with
        thread := update s.thread t
          { s.thread t with state := .waiting, waitingOn := some w }
        phase := update s.phase t (.inserting c w)
        lock := update s.lock t (some .self) }
  | insert {t w c : ℕ} (hphase : s.phase t = .inserting c w) :
      Does s (.insert t) { s with
        waitlist := update s.waitlist w (s.waitlist w ++ [t])
        waits := update s.waits t (s.waits t + 1)
        phase := update s.phase t (.yielding c) }
  | yield {t c : ℕ} (hphase : s.phase t = .running c) (hlock : s.lock t = none) :
      Does s (.yield t) { s with
        phase := update s.phase t (.yielding c)
        lock := update s.lock t (some .self) }
  | stay {t c : ℕ} (hphase : s.phase t = .yielding c) (hrun : (s.thread t).state = .running) :
      Does s (.runqueue t) { s with
        phase := update s.phase t (.running c)
        lock := update s.lock t none }
  | preempt {t c n : ℕ} {rest : List ℕ} (hphase : s.phase t = .yielding c)
      (hchosen : s.Chosen idle c n rest) (hne : t ≠ n) (hrun : (s.thread t).state = .running) :
      Does s (.runqueue t) { s with
        thread := update s.thread t
          { s.thread t with state := .ready, cpu := none, lastCpu := some c }
        queue := update s.queue c (rest ++ if t = idle c then [] else [t])
        phase := update s.phase t (.leaving c n) }
  | sleep {t c n : ℕ} {rest : List ℕ} (hphase : s.phase t = .yielding c)
      (hchosen : s.Chosen idle c n rest) (hne : t ≠ n) (hrun : (s.thread t).state ≠ .running) :
      Does s (.runqueue t) { s with
        thread := update s.thread t { s.thread t with cpu := none, lastCpu := some c }
        queue := update s.queue c rest
        phase := update s.phase t (.leaving c n) }
  | switch {t c n : ℕ} (hphase : s.phase t = .leaving c n) :
      Does s (.switch t) { s with
        thread := update s.thread n { s.thread n with state := .running, cpu := some c }
        phase := update (update s.phase t .off) n (.running c)
        lock := update s.lock t none }
  | take {e : Event} {a w n : ℕ} (he : Takes s e a w n) (ha : s.agent a = .ready []) :
      Does s e { s with
        waitlist := update s.waitlist w ((s.waitlist w).drop n)
        agent := update s.agent a (.ready ((s.waitlist w).take n)) }
  | ready {a random t : ℕ} {rest : List ℕ} (ha : s.agent a = .ready (t :: rest))
      (hlock : s.lock t = none) :
      Does s (.ready a random) { s with
        thread := update s.thread t
          { s.thread t with state := .ready, waitingOn := none }
        agent := update s.agent a (.queueing t (s.readyCpu t random) rest)
        lock := update s.lock t (some (.agent a)) }
  | late {e : Event} {a t : ℕ} (he : Aims e a t) (hw : (s.thread t).waitingOn = none) : Does s e s
  | aim {e : Event} {a t w : ℕ} (he : Aims e a t) (ha : s.agent a = .ready [])
      (hlock : s.lock t = none) (hw : (s.thread t).waitingOn = some w) :
      Does s e { s with
        agent := update s.agent a (.removing t w)
        lock := update s.lock t (some (.agent a)) }
  | remove {a random t w : ℕ} (ha : s.agent a = .removing t w) (hmem : t ∈ s.waitlist w) :
      Does s (.remove a random) { s with
        thread := update s.thread t
          { s.thread t with state := .ready, waitingOn := none }
        waitlist := update s.waitlist w ((s.waitlist w).erase t)
        agent := update s.agent a (.queueing t (s.readyCpu t random) []) }
  | enqueue {a t c : ℕ} {rest : List ℕ} (ha : s.agent a = .queueing t c rest) :
      Does s (.enqueue a) { s with
        queue := update s.queue c (s.queue c ++ [t])
        wakes := update s.wakes t (s.wakes t + 1)
        agent := update s.agent a (.releasing t rest) }
  | release {a t : ℕ} {rest : List ℕ} (ha : s.agent a = .releasing t rest) :
      Does s (.release a) { s with
        agent := update s.agent a (.ready rest)
        lock := update s.lock t none }

variable {s s' : State} {e : Event} {a t : ℕ}

theorem take_does {w n : ℕ} (he : Takes s e a w n)
    (h : s.take a w n = some s') : Does idle s e s' := by
  unfold State.take at h
  split at h
  · next ha =>
    cases h
    exact .take he ha
  · cases h

theorem notifyThread_does (he : Aims e a t)
    (h : s.comSysSchedNotifyThread a t = some s') : Does idle s e s' := by
  unfold State.comSysSchedNotifyThread at h
  split at h
  · next _ _ hw =>
    cases h
    exact .late he hw
  · next ha hlock hw =>
    split_ifs at h
    cases h
    exact .aim he ha hlock hw
  · cases h

theorem next_does (h : next idle s e = some s') : Does idle s e s' := by
  cases e with
  | wait t w =>
    simp only [next] at h
    split at h
    · next c hphase hlock =>
      split_ifs at h with hidle
      obtain ⟨q, hq, rfl⟩ := map_eq_some_iff.mp h
      obtain ⟨-, rfl⟩ := Sched.beginWait_eq.mp hq
      exact .wait hphase hlock hidle
    · cases h
  | insert t =>
    simp only [next] at h
    split at h
    · next c w hphase =>
      cases h
      exact .insert hphase
    · cases h
  | yield t =>
    simp only [next] at h
    split at h
    · next c hphase hlock =>
      cases h
      exact .yield hphase hlock
    · cases h
  | runqueue t =>
    simp only [next] at h
    split at h
    · next c hphase =>
      obtain ⟨⟨q, nx⟩, hq, rfl⟩ := map_eq_some_iff.mp h
      obtain ⟨heq, -, hrun⟩ | ⟨n, rest, hchosen, hnx, hne, ⟨hrun, -, heq⟩ | ⟨hrun, heq⟩⟩ :=
        Sched.yieldSection_cases hq
      · cases heq
        exact .stay hphase hrun
      · obtain rfl : nx = some n := hnx
        obtain rfl : q = _ := heq
        exact .preempt hphase hchosen hne hrun
      · obtain rfl : nx = some n := hnx
        obtain rfl : q = _ := heq
        exact .sleep hphase hchosen hne hrun
    · cases h
  | switch t =>
    simp only [next] at h
    split at h
    · next c n hphase =>
      obtain ⟨q, hq, rfl⟩ := map_eq_some_iff.mp h
      obtain ⟨-, rfl⟩ := Sched.switchTo_eq.mp hq
      exact .switch hphase
    · cases h
  | notify a w => exact take_does idle (.notify a w) h
  | notifyAll a w => exact take_does idle (.notifyAll a w) h
  | notifyN a w n => exact take_does idle (.notifyN a w n) h
  | ready a random =>
    simp only [next] at h
    split at h
    · next t rest ha =>
      split_ifs at h with hlock
      obtain ⟨q, hq, rfl⟩ := map_eq_some_iff.mp h
      obtain ⟨-, rfl⟩ := Sched.beginReady_eq.mp hq
      exact .ready ha hlock
    · cases h
  | notifyThread a t => exact notifyThread_does idle (.notifyThread a t) h
  | timeout a t => exact notifyThread_does idle (.timeout a t) h
  | remove a random =>
    simp only [next] at h
    split at h
    · next t w ha =>
      split_ifs at h with hmem
      obtain ⟨q, hq, rfl⟩ := map_eq_some_iff.mp h
      obtain ⟨-, rfl⟩ := Sched.beginReady_eq.mp hq
      exact .remove ha hmem
    · cases h
  | enqueue a =>
    simp only [next] at h
    split at h
    · next t c rest ha =>
      cases h
      exact .enqueue ha
    · cases h
  | release a =>
    simp only [next] at h
    split at h
    · next t rest ha =>
      cases h
      exact .release ha
    · cases h

namespace Phase

def cpu : Phase → Option ℕ
  | .off => none
  | .running c | .inserting c _ | .yielding c | .leaving c _ => some c

def next : Phase → Option ℕ
  | .leaving _ n => some n
  | _ => none

def Holds : Phase → Prop
  | .off | .running _ => False
  | .inserting _ _ | .yielding _ | .leaving _ _ => True

end Phase

namespace Agent

def queue : Agent → List ℕ
  | .ready queue => queue
  | .removing _ _ => []
  | .queueing _ _ rest | .releasing _ rest => rest

def readying : Agent → Option ℕ
  | .queueing t _ _ => some t
  | _ => none

def holds : Agent → Option ℕ
  | .ready _ => none
  | .removing t _ | .queueing t _ _ | .releasing t _ => some t

end Agent

inductive Link where
  | free
  | waitlist (w : ℕ)
  | localQueue (a : ℕ)
  | readying (a : ℕ)
  | runqueue (c : ℕ)
  | next (u : ℕ)
  deriving DecidableEq

structure Linked (s : State) (t : ℕ) (l : Link) : Prop where
  waitlist : ∀ w, (s.waitlist w).count t = if l = .waitlist w then 1 else 0
  localQueue : ∀ a, (s.agent a).queue.count t = if l = .localQueue a then 1 else 0
  readying : ∀ a, (s.agent a).readying = some t ↔ l = .readying a
  runqueue : ∀ c, (s.queue c).count t = if l = .runqueue c then 1 else 0
  next : ∀ u, (s.phase u).next = some t ↔ l = .next u

def Phase.Asleep : Phase → Prop
  | .off | .yielding _ | .leaving _ _ => True
  | .running _ | .inserting _ _ => False

def IsIdle (t : ℕ) : Prop := ∃ c, t = idle c

/-- How the rest of a thread goes with its links: one that was put on a wait list and not yet on a
run queue has one wait more than wakes. -/
def Stage (t : ℕ) (l : Link) (phase : Phase) (th : Thread) (waits wakes : ℕ) : Prop :=
  match l with
  | .free => waits = wakes ∧
    match phase with
    | .off => th.waitingOn = none
    | .running _ | .yielding _ => th.state = .running ∧ th.waitingOn = none
    | .inserting _ w => ¬ IsIdle idle t ∧ th.state = .waiting ∧ th.waitingOn = some w
    | .leaving _ _ => IsIdle idle t ∧ th.waitingOn = none
  | .waitlist w => ¬ IsIdle idle t ∧ waits = wakes + 1 ∧ th.state = .waiting ∧
    th.waitingOn = some w ∧ phase.Asleep
  | .localQueue _ => ¬ IsIdle idle t ∧ waits = wakes + 1 ∧ th.state = .waiting ∧ phase.Asleep
  | .readying _ => ¬ IsIdle idle t ∧ waits = wakes + 1 ∧ th.waitingOn = none ∧ phase = .off
  | .runqueue c => ¬ IsIdle idle t ∧ waits = wakes ∧ th.waitingOn = none ∧
    (phase = .off ∨ ∃ n, phase = .leaving c n)
  | .next _ => waits = wakes ∧ th.waitingOn = none ∧ phase = .off

def Staged (s : State) (t : ℕ) : Prop :=
  ∃ l, Linked s t l ∧ Stage idle t l (s.phase t) (s.thread t) (s.waits t) (s.wakes t)

structure Inv (s : State) : Prop where
  exclusive : ∀ u v c, (s.phase u).cpu = some c → (s.phase v).cpu = some c → u = v
  home : ∀ c c', (s.phase (idle c)).cpu = some c' → c' = c
  choice : ∀ u c c', s.phase u = .leaving c (idle c') → c' = c
  self : ∀ t, (s.phase t).Holds → s.lock t = some .self
  agent : ∀ a t, (s.agent a).holds = some t → s.lock t = some (.agent a)
  stage : ∀ t, Staged idle s t

def RemovalsFind (s : State) : Prop := ∀ a t w, s.agent a = .removing t w → t ∈ s.waitlist w

/-- The calls that take threads from the front of a wait list leave alone the one whose removal is
under way, and no removal is begun for a thread that such a call has taken. -/
def Clear (s : State) : Event → Prop
  | .notify _ w => ∀ t ∈ (s.waitlist w).take 1, ∀ b, s.agent b ≠ .removing t w
  | .notifyAll _ w => ∀ t ∈ s.waitlist w, ∀ b, s.agent b ≠ .removing t w
  | .notifyN _ w n => ∀ t ∈ (s.waitlist w).take n, ∀ b, s.agent b ≠ .removing t w
  | .notifyThread _ t | .timeout _ t =>
    (s.thread t).waitingOn = none ∨ ∀ b, t ∉ (s.agent b).queue
  | _ => True

section

variable {idle} {s s' : State} {e : Event}

theorem Does.exclusive (h : Does idle s e s')
    (hs : ∀ u v c, (s.phase u).cpu = some c → (s.phase v).cpu = some c → u = v) :
    ∀ u v c, (s'.phase u).cpu = some c → (s'.phase v).cpu = some c → u = v := by
  cases h with
  | wait hphase _ _ | insert hphase | yield hphase _ | stay hphase _ | preempt hphase _ _ _
  | sleep hphase _ _ _ | switch hphase =>
    intro u v c hu hv
    grind [Phase.cpu]
  | _ => exact hs

theorem Does.self (h : Does idle s e s') (hs : ∀ t, (s.phase t).Holds → s.lock t = some .self)
    (ha : ∀ a t, (s.agent a).holds = some t → s.lock t = some (.agent a)) :
    ∀ t, (s'.phase t).Holds → s'.lock t = some .self := by
  cases h with
  | take _ _ | late _ _ | remove _ _ | enqueue _ => exact hs
  | @release a t rest hagent =>
    have hlock := ha a t (by rw [hagent]; rfl)
    intro u hu
    grind
  | _ =>
    intro u hu
    grind [Phase.Holds]

theorem Does.agent (h : Does idle s e s') (hs : ∀ t, (s.phase t).Holds → s.lock t = some .self)
    (ha : ∀ a t, (s.agent a).holds = some t → s.lock t = some (.agent a)) :
    ∀ a t, (s'.agent a).holds = some t → s'.lock t = some (.agent a) := by
  cases h with
  | insert _ | preempt _ _ _ _ | sleep _ _ _ _ | late _ _ => exact ha
  | _ =>
    intro a u hu
    grind [Phase.Holds, Agent.holds]

variable {t u c n w a : ℕ} {rest : List ℕ} {l : Link}

theorem Inv.chosen (hs : Inv idle s) (hphase : s.phase u = .yielding c)
    (hchosen : s.Chosen idle c n rest) (hne : u ≠ n) (hl : Linked s n l)
    (hst : Stage idle n l (s.phase n) (s.thread n) (s.waits n) (s.wakes n)) :
    (l = .runqueue c ∧ n ≠ idle c ∨ l = .free ∧ n = idle c) ∧ s.phase n = .off ∧
      s.waits n = s.wakes n ∧ (s.thread n).waitingOn = none := by
  have hot : (s.phase n).cpu ≠ some c := fun h =>
    hne (hs.exclusive u n c (by rw [hphase]; rfl) h)
  cases hchosen with
  | head h hidle =>
    have hct := hl.runqueue c
    obtain rfl : l = .runqueue c := by grind
    obtain ⟨-, heq, hw, hof | ⟨m, hm⟩⟩ := hst
    · exact ⟨.inl ⟨rfl, hidle⟩, hof, heq, hw⟩
    · rw [hm] at hot
      exact absurd rfl hot
  | idle h =>
    have hidle : IsIdle idle (idle c) := ⟨c, rfl⟩
    have hof : s.phase (idle c) = .off := by
      cases hp : s.phase (idle c) <;> have := hs.home c <;> grind [Phase.cpu]
    have hfr : l = .free := by
      cases l with
      | free => rfl
      | next v =>
        have hv := (hl.next v).mpr rfl
        cases hp : s.phase v with
        | leaving c' m =>
          rw [hp] at hv
          obtain rfl : m = idle c := some.inj hv
          obtain rfl := hs.choice v c' c hp
          have huv := hs.exclusive u v c (by rw [hphase]; rfl) (by rw [hp]; rfl)
          rw [← huv, hphase] at hp
          cases hp
        | _ =>
          rw [hp] at hv
          cases hv
      | _ => exact absurd hidle hst.1
    subst hfr
    rw [hof] at hst
    exact ⟨.inr ⟨rfl, rfl⟩, hof, hst.1, hst.2⟩

variable {phase : Phase}

theorem Linked.next_update {l : Link} (h : Linked s t l) (hold : (s.phase u).next = none)
    (hnw : phase.next = none) (v : ℕ) :
    (update s.phase u phase v).next = some t ↔ l = .next v := by
  by_cases hv : v = u
  · subst hv
    have hno := h.next v
    rw [hold] at hno
    rw [update_self, hnw]
    exact hno
  · rw [update_of_ne hv]
    exact h.next v

/-! The links and stages of any thread `t` after each event. -/

theorem Inv.stage_wait (hs : Inv idle s) (hphase : s.phase u = .running c) (hidle : u ≠ idle c)
    (t w : ℕ) (lock : ℕ → Option Holder) : Staged idle { s with
      thread := update s.thread u { s.thread u with state := .waiting, waitingOn := some w }
      phase := update s.phase u (.inserting c w)
      lock := lock } t := by
  obtain ⟨l, hl, hst⟩ := hs.stage t
  refine ⟨l, ⟨hl.waitlist, hl.localQueue, hl.readying, hl.runqueue,
    hl.next_update (by rw [hphase]; rfl) rfl⟩, ?_⟩
  · by_cases hu : t = u
    · subst hu
      have hpl : ¬ IsIdle idle t := by
        rintro ⟨c', rfl⟩
        exact hidle (by rw [hs.home c' c (by rw [hphase]; rfl)])
      cases l <;> simp_all [Stage, Phase.Asleep]
    · simpa [hu] using hst

theorem Inv.stage_insert (hs : Inv idle s) (hphase : s.phase u = .inserting c w) (t : ℕ) :
    Staged idle { s with
      waitlist := update s.waitlist w (s.waitlist w ++ [u])
      waits := update s.waits u (s.waits u + 1)
      phase := update s.phase u (.yielding c) } t := by
  obtain ⟨l, hl, hst⟩ := hs.stage t
  have hwt := hl.waitlist
  have hnt := hl.next
  by_cases hu : t = u
  · subst hu
    obtain rfl : l = .free := by
      cases l <;> simp_all [Stage, Phase.Asleep]
    refine ⟨.waitlist w, ⟨?_, by simpa using hl.localQueue, by simpa using hl.readying,
      by simpa using hl.runqueue, ?_⟩, by simp_all [Stage, Phase.Asleep]⟩
    · grind
    · grind [Phase.next]
  · refine ⟨l, ⟨?_, hl.localQueue, hl.readying, hl.runqueue,
      hl.next_update (by rw [hphase]; rfl) rfl⟩, by simpa [hu] using hst⟩
    grind

theorem Inv.stage_own (hs : Inv idle s) (t : ℕ) (lock : ℕ → Option Holder)
    (hphase : s.phase u = .running c ∨ s.phase u = .yielding c)
    (hstt : s.phase u = .yielding c → (s.thread u).state = .running)
    (hnw : phase = .running c ∨ phase = .yielding c) : Staged idle { s with
      phase := update s.phase u phase
      lock := lock } t := by
  obtain ⟨l, hl, hst⟩ := hs.stage t
  have hold : (s.phase u).next = none := by
    rcases hphase with hphase | hphase <;> rw [hphase] <;> rfl
  have hno : phase.next = none := by
    rcases hnw with rfl | rfl <;> rfl
  refine ⟨l, ⟨hl.waitlist, hl.localQueue, hl.readying, hl.runqueue, hl.next_update hold hno⟩, ?_⟩
  · by_cases hu : t = u
    · subst hu
      rcases hphase with hphase | hphase <;> rcases hnw with rfl | rfl <;> rw [hphase] at hst <;>
        cases l <;> simp_all [Stage, Phase.Asleep]
    · simpa [hu] using hst

variable {more : List ℕ}

section

variable (hs : Inv idle s)

include hs

section

variable (hphase : s.phase u = .yielding c) (hchosen : s.Chosen idle c n rest)

include hphase hchosen

theorem Inv.stage_chosen (hne : u ≠ n) (th : Thread)
    (hmr : n ∉ more) : Staged idle { s with
      thread := update s.thread u th
      queue := update s.queue c (rest ++ more)
      phase := update s.phase u (.leaving c n) } n := by
  obtain ⟨l, hl, hst⟩ := hs.stage n
  obtain ⟨hl', hof, heq, hw⟩ := hs.chosen hphase hchosen hne hl hst
  have hct := hchosen.count n
  have hrun := hl.runqueue
  have hnt := hl.next
  refine ⟨.next u, ⟨?_, ?_, ?_, ?_, ?_⟩, ?_⟩
  · have := hl.waitlist
    grind
  · have := hl.localQueue
    grind
  · have := hl.readying
    grind
  · grind
  · grind [Phase.next]
  · simp [Stage, hne.symm, hof, heq, hw]

theorem Inv.stage_other (th : Thread) (hu : t ≠ u) (hn : t ≠ n)
    (hmr : t ∉ more) : Staged idle { s with
      thread := update s.thread u th
      queue := update s.queue c (rest ++ more)
      phase := update s.phase u (.leaving c n) } t := by
  obtain ⟨l, hl, hst⟩ := hs.stage t
  have hct := hchosen.count t
  have hrun := hl.runqueue
  have hnt := hl.next
  refine ⟨l, ⟨hl.waitlist, hl.localQueue, hl.readying, ?_, ?_⟩, by simpa [hu] using hst⟩
  · grind
  · grind [Phase.next]

theorem Inv.stage_preempt (hne : u ≠ n) (hrun : (s.thread u).state = .running) (t : ℕ) :
    Staged idle { s with
      thread := update s.thread u
        { s.thread u with state := .ready, cpu := none, lastCpu := some c }
      queue := update s.queue c (rest ++ if u = idle c then [] else [u])
      phase := update s.phase u (.leaving c n) } t := by
  have hmem : ∀ v, v ≠ u → v ∉ if u = idle c then [] else [u] := by grind
  by_cases hn : t = n
  · subst hn
    exact hs.stage_chosen hphase hchosen hne _ (hmem t hne.symm)
  · by_cases hu : t = u
    · subst hu
      obtain ⟨l, hl, hst⟩ := hs.stage t
      have hct := hchosen.count t
      have hqu := hl.runqueue
      have hnt := hl.next
      obtain rfl : l = .free := by
        cases l <;> grind [Stage]
      by_cases hidle : IsIdle idle t
      · obtain ⟨c', rfl⟩ := id hidle
        obtain rfl := hs.home c' c (by rw [hphase]; rfl)
        refine ⟨.free, ⟨hl.waitlist, hl.localQueue, hl.readying, ?_, ?_⟩, by simp_all [Stage]⟩
        · grind
        · grind [Phase.next]
      · have hot : t ≠ idle c := fun h => hidle ⟨c, h⟩
        refine ⟨.runqueue c, ⟨by simpa using hl.waitlist, by simpa using hl.localQueue,
          by simpa using hl.readying, ?_, ?_⟩, ?_⟩
        · grind
        · grind [Phase.next]
        · grind [Stage]
    · exact hs.stage_other hphase hchosen _ hu hn (hmem t hu)

theorem Inv.stage_sleep (hne : u ≠ n) (hrun : (s.thread u).state ≠ .running) (t : ℕ) :
    Staged idle { s with
      thread := update s.thread u { s.thread u with cpu := none, lastCpu := some c }
      queue := update s.queue c (rest ++ [])
      phase := update s.phase u (.leaving c n) } t := by
  by_cases hn : t = n
  · subst hn
    exact hs.stage_chosen hphase hchosen hne _ not_mem_nil
  · by_cases hu : t = u
    · subst hu
      obtain ⟨l, hl, hst⟩ := hs.stage t
      have hct := hchosen.count t
      have hqu := hl.runqueue
      have hnt := hl.next
      refine ⟨l, ⟨hl.waitlist, hl.localQueue, hl.readying, ?_, ?_⟩, ?_⟩
      · grind
      · grind [Phase.next]
      · cases l <;> grind [Stage, Phase.Asleep]
    · exact hs.stage_other hphase hchosen _ hu hn not_mem_nil

end

theorem Inv.stage_switch (hphase : s.phase u = .leaving c n) (t : ℕ)
    (lock : ℕ → Option Holder) : Staged idle { s with
      thread := update s.thread n { s.thread n with state := .running, cpu := some c }
      phase := update (update s.phase u .off) n (.running c)
      lock := lock } t := by
  -- the chosen thread is switched out, so it has chosen nobody itself
  obtain ⟨ln, hln, hsn⟩ := hs.stage n
  obtain rfl : ln = .next u := (hln.next u).mp (by rw [hphase]; rfl)
  obtain ⟨heq, hw, hof⟩ := hsn
  by_cases hn : t = n
  · subst hn
    have hnt := hln.next
    refine ⟨.free, ⟨by simpa using hln.waitlist, by simpa using hln.localQueue,
      by simpa using hln.readying, by simpa using hln.runqueue, ?_⟩, ?_⟩
    · grind [Phase.next]
    · simp [Stage, heq, hw]
  · obtain ⟨l, hl, hst⟩ := hs.stage t
    have hnt := hl.next
    refine ⟨l, ⟨hl.waitlist, hl.localQueue, hl.readying, hl.runqueue, ?_⟩, ?_⟩
    · grind [Phase.next]
    · by_cases hu : t = u
      · cases l <;> grind [Stage, Phase.Asleep]
      · simpa [hu, hn] using hst

theorem Inv.stage_take (ha : s.agent a = .ready []) (w n t : ℕ) :
    Staged idle { s with
      waitlist := update s.waitlist w ((s.waitlist w).drop n)
      agent := update s.agent a (.ready ((s.waitlist w).take n)) } t := by
  obtain ⟨l, hl, hst⟩ := hs.stage t
  have hwt := hl.waitlist
  have hlc := hl.localQueue
  have hrd := hl.readying
  have hct : (s.waitlist w).count t =
      ((s.waitlist w).take n).count t + ((s.waitlist w).drop n).count t := by
    rw [← count_append, take_append_drop]
  by_cases hmem : t ∈ (s.waitlist w).take n
  · obtain rfl : l = .waitlist w := by grind
    obtain ⟨hidle, heq, hstt, -, hphase⟩ := hst
    refine ⟨.localQueue a, ⟨?_, ?_, ?_, by simpa using hl.runqueue, by simpa using hl.next⟩,
      hidle, heq, hstt, hphase⟩
    · grind
    · grind [Agent.queue]
    · grind [Agent.readying]
  · refine ⟨l, ⟨?_, ?_, ?_, hl.runqueue, hl.next⟩, hst⟩
    · grind
    · grind [Agent.queue]
    · grind [Agent.readying]

theorem Inv.off_of_asleep (hlock : s.lock t ≠ some .self)
    (hphase : (s.phase t).Asleep) : s.phase t = .off := by
  have hsl := hs.self t
  cases hp : s.phase t <;> grind [Phase.Asleep, Phase.Holds]

theorem Inv.stage_ready (ha : s.agent a = .ready (u :: rest))
    (hlock : s.lock u = none) (t k : ℕ) (lock : ℕ → Option Holder) : Staged idle { s with
      thread := update s.thread u { s.thread u with state := .ready, waitingOn := none }
      agent := update s.agent a (.queueing u k rest)
      lock := lock } t := by
  obtain ⟨l, hl, hst⟩ := hs.stage t
  have hlc := hl.localQueue
  have hrd := hl.readying
  have hqu := hlc a
  rw [ha, Agent.queue, count_cons] at hqu
  by_cases hu : t = u
  · subst hu
    obtain rfl : l = .localQueue a := by grind
    obtain ⟨hidle, heq, -, hphase⟩ := hst
    have hof := hs.off_of_asleep (by simp [hlock]) hphase
    refine ⟨.readying a, ⟨by simpa using hl.waitlist, ?_, ?_, by simpa using hl.runqueue,
      by simpa using hl.next⟩, by simp [Stage, hidle, heq, hof]⟩
    · grind [Agent.queue]
    · grind [Agent.readying]
  · refine ⟨l, ⟨hl.waitlist, ?_, ?_, hl.runqueue, hl.next⟩, by simpa [hu] using hst⟩
    · grind [Agent.queue]
    · grind [Agent.readying]

theorem Inv.stage_agent {agent : Agent}
    (hqu : agent.queue = (s.agent a).queue) (hnw : agent.readying = none)
    (hold : (s.agent a).readying = none) (t : ℕ) (lock : ℕ → Option Holder) : Staged idle { s with
      agent := update s.agent a agent
      lock := lock } t := by
  obtain ⟨l, hl, hst⟩ := hs.stage t
  have hlc := hl.localQueue
  have hrd := hl.readying
  refine ⟨l, ⟨hl.waitlist, ?_, ?_, hl.runqueue, hl.next⟩, hst⟩
  · grind
  · grind

theorem Inv.stage_remove (ha : s.agent a = .removing u w)
    (hmem : u ∈ s.waitlist w) (t k : ℕ) : Staged idle { s with
      thread := update s.thread u { s.thread u with state := .ready, waitingOn := none }
      waitlist := update s.waitlist w ((s.waitlist w).erase u)
      agent := update s.agent a (.queueing u k []) } t := by
  obtain ⟨l, hl, hst⟩ := hs.stage t
  have hwt := hl.waitlist
  have hlc := hl.localQueue
  have hrd := hl.readying
  by_cases hu : t = u
  · subst hu
    have her : ((s.waitlist w).erase t).count t = (s.waitlist w).count t - 1 :=
      count_erase_self
    obtain rfl : l = .waitlist w := by grind
    obtain ⟨hidle, heq, -, -, hphase⟩ := hst
    have hlock := hs.agent a t (by rw [ha]; rfl)
    have hof := hs.off_of_asleep (by simp [hlock]) hphase
    refine ⟨.readying a, ⟨?_, ?_, ?_, by simpa using hl.runqueue, by simpa using hl.next⟩,
      by simp [Stage, hidle, heq, hof]⟩
    · grind
    · grind [Agent.queue]
    · grind [Agent.readying]
  · have her : ((s.waitlist w).erase u).count t = (s.waitlist w).count t :=
      count_erase_of_ne hu
    refine ⟨l, ⟨?_, ?_, ?_, hl.runqueue, hl.next⟩, by simpa [hu] using hst⟩
    · grind
    · grind [Agent.queue]
    · grind [Agent.readying]

theorem Inv.stage_enqueue (ha : s.agent a = .queueing u c rest) (t : ℕ) :
    Staged idle { s with
      queue := update s.queue c (s.queue c ++ [u])
      wakes := update s.wakes u (s.wakes u + 1)
      agent := update s.agent a (.releasing u rest) } t := by
  obtain ⟨l, hl, hst⟩ := hs.stage t
  have hlc := hl.localQueue
  have hrd := hl.readying
  have hrun := hl.runqueue
  by_cases hu : t = u
  · subst hu
    obtain rfl : l = .readying a := (hrd a).mp (by rw [ha]; rfl)
    obtain ⟨hidle, heq, hw, hof⟩ := hst
    refine ⟨.runqueue c, ⟨by simpa using hl.waitlist, ?_, ?_, ?_, by simpa using hl.next⟩,
      by simp [Stage, hidle, heq, hw, hof]⟩
    · grind [Agent.queue]
    · grind [Agent.readying]
    · grind
  · refine ⟨l, ⟨hl.waitlist, ?_, ?_, ?_, hl.next⟩, by simpa [hu] using hst⟩
    · grind [Agent.queue]
    · grind [Agent.readying]
    · grind

end

theorem Does.stage (h : Does idle s e s') (hs : Inv idle s) (t : ℕ) : Staged idle s' t := by
  cases h with
  | wait hphase _ hidle => exact hs.stage_wait hphase hidle t _ _
  | insert hphase => exact hs.stage_insert hphase t
  | yield hphase _ =>
    exact hs.stage_own t _ (.inl hphase) (fun h => by rw [hphase] at h; cases h) (.inr rfl)
  | stay hphase hrun => exact hs.stage_own t _ (.inr hphase) (fun _ => hrun) (.inl rfl)
  | preempt hphase hchosen hne hrun => exact hs.stage_preempt hphase hchosen hne hrun t
  | @sleep u c n rest hphase hchosen hne hrun =>
    have hsg := hs.stage_sleep hphase hchosen hne hrun t
    rwa [append_nil] at hsg
  | switch hphase => exact hs.stage_switch hphase t _
  | take _ ha => exact hs.stage_take ha _ _ t
  | ready ha hlock => exact hs.stage_ready ha hlock t _ _
  | late _ _ => exact hs.stage t
  | aim _ ha _ _ | release ha => exact hs.stage_agent (by rw [ha]; rfl) rfl (by rw [ha]; rfl) t _
  | remove ha hmem => exact hs.stage_remove ha hmem t _
  | enqueue ha => exact hs.stage_enqueue ha t

theorem Inv.chosen_home (hs : Inv idle s) (hidle : Function.Injective idle)
    (hphase : s.phase u = .yielding c) (hchosen : s.Chosen idle c n rest) (hne : u ≠ n) (c' : ℕ)
    (hn : n = idle c') : c' = c := by
  obtain ⟨l, hl, hst⟩ := hs.stage n
  obtain ⟨⟨rfl, -⟩ | ⟨-, heq⟩, -⟩ := hs.chosen hphase hchosen hne hl hst
  · exact absurd ⟨c', hn⟩ hst.1
  · exact hidle (hn.symm.trans heq)

theorem Does.choice (h : Does idle s e s') (hidle : Function.Injective idle) (hs : Inv idle s) :
    ∀ u c c', s'.phase u = .leaving c (idle c') → c' = c := by
  have hch := hs.choice
  cases h with
  | preempt hphase hchosen hne _ | sleep hphase hchosen hne _ =>
    have hhm := hs.chosen_home hidle hphase hchosen hne
    intro v d c' hv
    grind
  | wait hphase _ _ | insert hphase | yield hphase _ | stay hphase _ | switch hphase =>
    intro v d c' hv
    dsimp only at hv
    grind
  | _ => exact hch

theorem Does.home (h : Does idle s e s') (hs : Inv idle s) :
    ∀ c c', (s'.phase (idle c)).cpu = some c' → c' = c := by
  have hhm := hs.home
  cases h with
  | switch hphase =>
    have hch := hs.choice
    intro d c' hd
    grind [Phase.cpu]
  | wait hphase _ _ | insert hphase | yield hphase _ | stay hphase _ | preempt hphase _ _ _
  | sleep hphase _ _ _ =>
    intro d c' hd
    dsimp only at hd
    grind [Phase.cpu]
  | _ => exact hhm

theorem Does.inv (h : Does idle s e s') (hidle : Function.Injective idle) (hs : Inv idle s) :
    Inv idle s' where
  exclusive := h.exclusive hs.exclusive
  home := h.home hs
  choice := h.choice hidle hs
  self := h.self hs.self hs.agent
  agent := h.agent hs.self hs.agent
  stage := h.stage hs

theorem clear_of_takes (he : Takes s e a w n) :
    Clear s e ↔ ∀ t ∈ (s.waitlist w).take n, ∀ b, s.agent b ≠ .removing t w := by
  cases he with
  | notify | notifyN => rfl
  | notifyAll => rw [take_length]; rfl

theorem clear_of_aims (he : Aims e a t) :
    Clear s e ↔ (s.thread t).waitingOn = none ∨ ∀ b, t ∉ (s.agent b).queue := by
  cases he <;> rfl

theorem Does.removalsFind (h : Does idle s e s') (hs : Inv idle s) (hcl : Clear s e)
    (hfd : RemovalsFind s) : RemovalsFind s' := by
  intro b v x hb
  cases h with
  | @insert u y c hphase =>
    have hmem := hfd b v x hb
    grind
  | @take e' a y k he ha =>
    have hal := (clear_of_takes he).mp hcl
    dsimp only at hb ⊢
    have hmem : v ∈ s.waitlist x := hfd b v x (by grind)
    by_cases hx : x = y
    · subst hx
      have hnot : v ∉ (s.waitlist x).take k := fun hv => hal v hv b (by grind)
      rw [update_self]
      rw [← take_append_drop k (s.waitlist x), mem_append] at hmem
      exact hmem.resolve_left hnot
    · rwa [update_of_ne hx]
  | @aim e' a u y he ha hlock hw =>
    dsimp only at hb ⊢
    by_cases hba : b = a
    · subst hba
      rw [update_self] at hb
      cases hb
      -- with a free lock the thread is switched out, and it was not taken
      obtain ⟨l, hl, hst⟩ := hs.stage v
      have hnot := ((clear_of_aims he).mp hcl).resolve_left (by simp [hw])
      have hsl := hs.self v
      have hlc := hl.localQueue
      have hwt := hl.waitlist x
      have hl' : l = .waitlist x := by
        cases l with
        | localQueue d =>
          grind
        | free => cases hp : s.phase v <;> grind [Stage, Phase.Holds]
        | _ => grind [Stage]
      rw [if_pos hl'] at hwt
      exact count_pos_iff.mp (by omega)
    · rw [update_of_ne hba] at hb
      exact hfd b v x hb
  | @remove a random u y ha hmem =>
    dsimp only at hb ⊢
    have hba : b ≠ a := by
      rintro rfl
      simp at hb
    rw [update_of_ne hba] at hb
    have hv := hfd b v x hb
    have hlock := hs.agent a u (by rw [ha]; rfl)
    have hlock' := hs.agent b v (by rw [hb]; rfl)
    have hne : v ≠ u := by
      rintro rfl
      rw [hlock] at hlock'
      cases hlock'
      exact hba rfl
    by_cases hx : x = y
    · subst hx
      rw [update_self]
      exact (mem_erase_of_ne hne).mpr hv
    · rwa [update_of_ne hx]
  | ready _ _ | enqueue _ | release _ =>
    exact hfd b v x (by grind)
  | _ => exact hfd b v x hb

theorem Does.not_removalsFind (h : Does idle s e s') (hs : Inv idle s) (hcl : ¬ Clear s e) :
    ¬ RemovalsFind s' := by
  intro hfd
  cases h with
  | @take e' a w k he ha =>
    rw [clear_of_takes he] at hcl
    push Not at hcl
    obtain ⟨t, ht, b, hb⟩ := hcl
    obtain ⟨l, hl, -⟩ := hs.stage t
    have hne : b ≠ a := by
      rintro rfl
      rw [ha] at hb
      cases hb
    have hmem : t ∈ (s.waitlist w).drop k := by
      have := hfd b t w (by simpa [hne] using hb)
      simpa using this
    have hct := hl.waitlist w
    rw [← take_append_drop k (s.waitlist w), count_append] at hct
    have h₁ := count_pos_iff.mpr ht
    have h₂ := count_pos_iff.mpr hmem
    split_ifs at hct <;> omega
  | @aim e' a t w he ha hlock hw =>
    rw [clear_of_aims he] at hcl
    push Not at hcl
    obtain ⟨-, b, hb⟩ := hcl
    obtain ⟨l, hl, -⟩ := hs.stage t
    have hmem : t ∈ s.waitlist w := hfd a t w (by simp)
    have hwt := hl.waitlist w
    have hlc := hl.localQueue b
    grind
  | late he hw => exact hcl ((clear_of_aims he).mpr (.inl hw))
  | _ => exact hcl trivial

structure WokenOnce (s : State) : Prop where
  once : ∀ t, s.wakes t ≤ s.waits t ∧ s.waits t ≤ s.wakes t + 1
  returned : ∀ t c, s.phase t = .running c → s.wakes t = s.waits t
  queued : ∀ t c c', t ∈ s.queue c → t ∈ s.queue c' → c = c' ∧ (s.queue c).count t = 1
  apart : ∀ t w c, ¬ (t ∈ s.waitlist w ∧ t ∈ s.queue c)
  removals : RemovalsFind s

theorem Inv.wokenOnce (hs : Inv idle s) (hfd : RemovalsFind s) : WokenOnce s where
  once t := by
    obtain ⟨l, -, hst⟩ := hs.stage t
    cases l with
    | free => exact ⟨hst.1.ge, hst.1.le.trans (Nat.le_succ _)⟩
    | _ => grind [Stage]
  returned t c hphase := by
    obtain ⟨l, -, hst⟩ := hs.stage t
    cases l <;> grind [Stage, Phase.Asleep]
  queued t c c' hc hc' := by
    obtain ⟨l, hl, -⟩ := hs.stage t
    have h := hl.runqueue c
    have h' := hl.runqueue c'
    grind
  apart t w c := by
    rintro ⟨hw, hc⟩
    obtain ⟨l, hl, -⟩ := hs.stage t
    have h := hl.waitlist w
    have h' := hl.runqueue c
    grind
  removals := hfd

variable (idle) in
/-- No wait and no call is under way; threads run, or are switched out, on a run queue or not. -/
structure Quiet (s : State) : Prop where
  waitlist : ∀ w, s.waitlist w = []
  agent : ∀ a, s.agent a = .ready []
  lock : ∀ t, s.lock t = none
  waits : ∀ t, s.waits t = s.wakes t
  waitingOn : ∀ t, (s.thread t).waitingOn = none
  phase : ∀ t, s.phase t = .off ∨ (s.thread t).state = .running ∧ ∃ c, s.phase t = .running c
  exclusive : ∀ u v c, s.phase u = .running c → s.phase v = .running c → u = v
  home : ∀ c c', s.phase (idle c) = .running c' → c' = c
  queued : ∀ t c, t ∈ s.queue c → s.phase t = .off ∧ ¬ IsIdle idle t ∧ (s.queue c).count t = 1
  one : ∀ t c c', t ∈ s.queue c → t ∈ s.queue c' → c = c'

theorem Quiet.running (h : Quiet idle s) (hcp : (s.phase t).cpu = some c) :
    s.phase t = .running c := by
  rcases h.phase t with hof | ⟨-, d, hd⟩
  · rw [hof] at hcp
    cases hcp
  · rw [hd] at hcp ⊢
    rw [some.inj hcp]

theorem Quiet.staged (h : Quiet idle s) (t : ℕ) : Staged idle s t := by
  have hnt : ∀ u, (s.phase u).next = none := fun u => by
    rcases h.phase u with hof | ⟨-, d, hd⟩
    · rw [hof]; rfl
    · rw [hd]; rfl
  have hlk : ∀ l : Link, (l = .free ∨ ∃ c, l = .runqueue c) →
      (∀ c, (s.queue c).count t = if l = .runqueue c then 1 else 0) → Linked s t l := by
    intro l hl hqu
    refine ⟨fun w => ?_, fun a => ?_, fun a => ?_, hqu, fun u => ?_⟩
    · rcases hl with rfl | ⟨c, rfl⟩ <;> simp [h.waitlist]
    · rcases hl with rfl | ⟨c, rfl⟩ <;> simp [h.agent, Agent.queue]
    · rcases hl with rfl | ⟨c, rfl⟩ <;> simp [h.agent, Agent.readying]
    · rcases hl with rfl | ⟨c, rfl⟩ <;> simp [hnt]
  by_cases hmem : ∃ c, t ∈ s.queue c
  · obtain ⟨c, hc⟩ := hmem
    obtain ⟨hof, hidle, hct⟩ := h.queued t c hc
    refine ⟨.runqueue c, hlk _ (.inr ⟨c, rfl⟩) fun d => ?_,
      hidle, h.waits t, h.waitingOn t, .inl hof⟩
    by_cases hd : d = c
    · rw [hd, hct, if_pos rfl]
    · have hnot : t ∉ s.queue d := fun hmem => hd (h.one t d c hmem hc)
      rw [count_eq_zero_of_not_mem hnot, if_neg]
      exact fun heq => hd (Link.runqueue.inj heq).symm
  · push Not at hmem
    refine ⟨.free, hlk _ (.inl rfl) fun d => ?_, ?_⟩
    · rw [count_eq_zero_of_not_mem (hmem d)]
      rfl
    · rcases h.phase t with hof | ⟨hstt, c, hc⟩
      · rw [hof]
        exact ⟨h.waits t, h.waitingOn t⟩
      · rw [hc]
        exact ⟨h.waits t, hstt, h.waitingOn t⟩

theorem Quiet.inv (h : Quiet idle s) : Inv idle s where
  exclusive u v c hu hv := h.exclusive u v c (h.running hu) (h.running hv)
  home c c' hc := h.home c c' (h.running hc)
  choice u c c' hu := by
    rcases h.phase u with hof | ⟨-, d, hd⟩
    · rw [hof] at hu
      cases hu
    · rw [hd] at hu
      cases hu
  self t ht := by
    rcases h.phase t with hof | ⟨-, d, hd⟩
    · rw [hof] at ht
      exact ht.elim
    · rw [hd] at ht
      exact ht.elim
  agent a t ha := by
    rw [h.agent a] at ha
    cases ha
  stage := h.staged

theorem Quiet.removalsFind (h : Quiet idle s) : RemovalsFind s := fun a t w ha => by
  rw [h.agent a] at ha
  cases ha

/-- Along every run whose events meet the condition every waiting thread is woken once, and the
first event that does not meet it breaks this. -/
theorem woken_once_of_clear (hidle : Function.Injective idle) (s₀ : State) (h₀ : Quiet idle s₀)
    (s : State) (hs : Runs.Reaches (next idle) Clear s₀ s) :
    WokenOnce s ∧ ∀ e s', next idle s e = some s' → (WokenOnce s' ↔ Clear s e) := by
  have hiv : Inv idle s ∧ RemovalsFind s :=
    hs.invariant (fun s => Inv idle s ∧ RemovalsFind s) ⟨h₀.inv, h₀.removalsFind⟩
      fun s e s' h hcl hnt =>
        have hds := next_does idle hnt
        ⟨hds.inv hidle h.1, hds.removalsFind h.1 hcl h.2⟩
  refine ⟨hiv.1.wokenOnce hiv.2, fun e s' hnt => ?_⟩
  have hds := next_does idle hnt
  constructor
  · intro hwk
    by_contra hcl
    exact hds.not_removalsFind hiv.1 hcl hwk.removals
  · intro hcl
    exact (hds.inv hidle hiv.1).wokenOnce (hds.removalsFind hiv.1 hcl hiv.2)

/-- Without the condition, too, a processor has one thread and a thread one place. -/
theorem threads_placed (hidle : Injective idle) {s₀ : State} (hquiet : Quiet idle s₀)
    (hreach : Runs.Reaches (next idle) (fun _ _ => True) s₀ s) : Inv idle s := by
  apply hreach.invariant _ hquiet.inv
  intro s e s' h _ hnext
  exact (next_does _ hnext).inv hidle h

end

def start : State where
  thread t := ⟨if t = 1 then .ready else .running, none, if t = 1 then none else some (t - 1), none⟩
  waitlist _ := []
  queue _ := []
  phase
    | 0 => .running 0
    | 1 => .off
    | t + 2 => .running (t + 1)
  lock _ := none
  agent _ := .ready []
  waits _ := 0
  wakes _ := 0

theorem start_phase {c : ℕ} (h : start.phase t = .running c) : t = if c = 0 then 0 else c + 1 := by
  rcases t with _ | _ | t
  · cases h
    rfl
  · cases h
  · cases h
    rfl

theorem quiet_start : Quiet (· + 1) start where
  waitlist _ := rfl
  agent _ := rfl
  lock _ := rfl
  waits _ := rfl
  waitingOn _ := rfl
  phase t := by
    rcases t with _ | _ | t
    · exact .inr ⟨rfl, 0, rfl⟩
    · exact .inl rfl
    · exact .inr ⟨rfl, t + 1, rfl⟩
  exclusive u v c hu hv := (start_phase hu).trans (start_phase hv).symm
  home c c' h := by
    have hc := start_phase h
    split_ifs at hc
    omega
  queued _ _ h := absurd h not_mem_nil
  one _ _ _ h := absurd h not_mem_nil

theorem woken_once_notified : ∃ s, Runs.Reaches (next (· + 1)) Clear start s ∧
    s.queue 0 = [0] ∧ s.waits 0 = 1 ∧ s.wakes 0 = 1 ∧ WokenOnce s := by
  have h₀ : Runs.Reaches (next (· + 1)) Clear start start := .start
  have h₁ := h₀.step (e := Event.wait 0 7) trivial rfl
  have h₂ := h₁.step (e := Event.insert 0) trivial rfl
  have h₃ := h₂.step (e := Event.notify 0 7) (fun _ _ _ => nofun) rfl
  have h₄ := h₃.step (e := Event.runqueue 0) trivial rfl
  have h₅ := h₄.step (e := Event.switch 0) trivial rfl
  have h₆ := h₅.step (e := Event.ready 0 0) trivial rfl
  have h₇ := h₆.step (e := Event.enqueue 0) trivial rfl
  exact ⟨_, h₇, rfl, rfl, rfl,
    (woken_once_of_clear (fun _ _ h => Nat.succ.inj h) start quiet_start _ h₇).1⟩

/-- A notification has taken the thread from the list and not yet readied it when its timeout
comes. -/
def raceTrace : List Event :=
  [.wait 0 7, .insert 0, .runqueue 0, .switch 0, .notify 0 7, .timeout 1 0]

theorem threads_placed_race :
    ∃ s, Runs.run (next (· + 1)) (fun _ _ => True) start raceTrace = some s ∧ Inv (· + 1) s := by
  obtain ⟨s, hs⟩ := isSome_iff_exists.mp
    (by decide : (Runs.run (next (· + 1)) (fun _ _ => True) start raceTrace).isSome)
  exact ⟨s, hs, threads_placed (fun _ _ h => Nat.succ.inj h) quiet_start (Runs.run_reaches hs)⟩

/-- The timeout is about to remove the thread from a list that is empty. -/
theorem not_woken_once : ∃ s, Runs.Reaches (next (· + 1)) (fun _ _ => True) start s ∧
    s.agent 1 = .removing 0 7 ∧ s.waitlist 7 = [] ∧ s.agent 0 = .ready [0] ∧ ¬ WokenOnce s := by
  have hrun : (Runs.run (next (· + 1)) (fun _ _ => True) start raceTrace).map
      (fun s => (s.agent 1, s.waitlist 7, s.agent 0)) =
        some (.removing 0 7, [], .ready [0]) := by decide
  obtain ⟨s, hs, heq⟩ := map_eq_some_iff.mp hrun
  obtain ⟨hrm, hrs⟩ := Prod.mk.inj heq
  obtain ⟨hls, hlc⟩ := Prod.mk.inj hrs
  refine ⟨s, Runs.run_reaches hs, hrm, hls, hlc, fun hwk => ?_⟩
  have hmem := hwk.removals 1 0 7 hrm
  rw [hls] at hmem
  exact absurd hmem not_mem_nil

end SchedWait
