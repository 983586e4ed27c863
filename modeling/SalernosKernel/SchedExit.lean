import SalernosKernel.Runs
import SalernosKernel.Threads

/-! # Threads that exit

The calls of the scheduler together with `com_sys_proc_kill_other_threads` and
`com_sys_proc_terminate` of `com/sys/proc.c`, each executed without interruption, on any number of
processors. The signal that `com_sys_proc_exit` sends is a notification of its own. -/
namespace SchedExit

open Threads List Sched
open Function (update update_apply update_eq_self update_idem update_of_ne update_self)
open Option (bind_some)

structure Machine extends Sched where
  current : ℕ → ℕ
  proc : ℕ → Option ℕ
  threads : ℕ → List ℕ
  numRunning : ℕ → ℤ
  exited : ℕ → Bool
  starting : ℕ → Bool

/-- `random` gives the processor of a thread that has not run before. -/
inductive Event where
  | yield (c : ℕ)
  | wait (c w : ℕ)
  | notify (w : ℕ) (random : ℕ → ℕ)
  | notifyAll (w : ℕ) (random : ℕ → ℕ)
  | notifyN (w numWaiters : ℕ) (random : ℕ → ℕ)
  | notifyThread (t : ℕ) (random : ℕ → ℕ)
  | create (t p : ℕ)
  | start (t : ℕ) (random : ℕ → ℕ)
  | kill (c : ℕ)
  | terminate (c : ℕ) (random : ℕ → ℕ)

variable (idle waitpid : ℕ → ℕ)

namespace Machine

variable (m : Machine)

def count (t : ℕ) (d : ℤ) : Machine :=
  match m.proc t with
  | none => m
  | some p => { m with numRunning := update m.numRunning p (m.numRunning p + d) }

def switch (c curr next : ℕ) : Option Machine :=
  (((m.count next 1).count curr (-1)).switchTo c next).map fun q =>
    { ((m.count next 1).count curr (-1)) with
      toSched := q
      current := update m.current c next }

def comSysSchedYieldNolock (c : ℕ) : Option Machine :=
  (m.yieldSection idle c (m.current c)).bind fun
    | (q, none) => some { m with toSched := q }
    | (q, some next) => { m with toSched := q }.switch c (m.current c) next

def comSysSchedWait (c w : ℕ) : Option Machine :=
  (m.beginWait (m.current c) w).bind fun q =>
    { m with toSched := q.insertWait (m.current c) w }.comSysSchedYieldNolock idle c

def ready (random : ℕ → ℕ) (t : ℕ) : Option Machine :=
  (m.comSysThreadReadyNolock t (random t)).map fun q => { m with toSched := q }

def notifyN (w n : ℕ) (random : ℕ → ℕ) : Option Machine :=
  ((m.waitlist w).take n).foldlM (ready · random)
    { m with toSched := m.setWaitlist w ((m.waitlist w).drop n) }

def comSysSchedNotifyThread (t : ℕ) (random : ℕ → ℕ) : Option Machine :=
  match (m.thread t).waitingOn with
  | none => some m
  | some w =>
    if (m.thread t).cpu = none ∧ t ∈ m.waitlist w then
      { m with toSched := m.setWaitlist w ((m.waitlist w).erase t) }.ready random t
    else none

def newThread (t p : ℕ) : Machine :=
  { m with
    proc := update m.proc t (some p)
    threads := update m.threads p (m.threads p ++ [t])
    starting := update m.starting t true }

def start (t : ℕ) (random : ℕ → ℕ) : Option Machine :=
  { m with starting := update m.starting t false }.ready random t

/-- A thread of another processor is only sent an interrupt, and that processor yields later. -/
def comSysThreadExitNolock (c t : ℕ) : Option Machine :=
  (m.transition t .exited).bind fun q =>
    if (q.thread t).cpu = some c then { m with toSched := q }.comSysSchedYieldNolock idle c
    else some { m with toSched := q }

def comSysProcRemoveThreadNolock (p t : ℕ) : Option Machine :=
  if t ∈ m.threads p then
    some { m with threads := update m.threads p ((m.threads p).erase t) }
  else none

def killOther (p c curr t : ℕ) : Option Machine :=
  if t = curr then some m
  else (m.comSysThreadExitNolock idle c t).bind (comSysProcRemoveThreadNolock · p t)

def comSysProcKillOtherThreadsNolock (p c : ℕ) : Option Machine :=
  (m.threads p).foldlM (killOther idle · p c (m.current c)) m

def comSysProcExit (p : ℕ) (random : ℕ → ℕ) : Option Machine :=
  if m.numRunning p = 1 then
    { m with exited := update m.exited p true }.notifyN (waitpid p)
      (m.waitlist (waitpid p)).length random
  else none

def comSysProcTerminate (p c : ℕ) (random : ℕ → ℕ) : Option Machine :=
  (((m.comSysProcKillOtherThreadsNolock idle p c).bind
    (comSysProcExit waitpid · p random)).bind
      (comSysProcRemoveThreadNolock · p (m.current c))).bind
        (comSysThreadExitNolock idle · c (m.current c))

end Machine

/-- Idle threads only yield, a thread is created once in a process that has not exited, and it is
made ready once. -/
def Enabled (m : Machine) : Event → Prop
  | .wait c _ => m.current c ≠ idle c
  | .create t p => (m.thread t).state = .new ∧ (∀ c, t ≠ idle c) ∧ m.proc t = none ∧
      m.exited p = false
  | .start t _ => m.starting t = true
  | .kill c | .terminate c _ => m.proc (m.current c) ≠ none
  | _ => True

/-- No result is a failed assertion, or the removal of a thread from a list that does not contain
it. -/
def next (m : Machine) : Event → Option Machine
  | .yield c => m.comSysSchedYieldNolock idle c
  | .wait c w => m.comSysSchedWait idle c w
  | .notify w random => m.notifyN w 1 random
  | .notifyAll w random => m.notifyN w (m.waitlist w).length random
  | .notifyN w n random => m.notifyN w n random
  | .notifyThread t random => m.comSysSchedNotifyThread t random
  | .create t p => some (m.newThread t p)
  | .start t random => m.start t random
  | .kill c => (m.proc (m.current c)).bind (m.comSysProcKillOtherThreadsNolock idle · c)
  | .terminate c random =>
    (m.proc (m.current c)).bind (m.comSysProcTerminate idle waitpid · c random)

structure Orderly (m : Machine) : Prop where
  ready : ∀ c, ∀ t ∈ m.queue c, (m.thread t).state = .ready
  waiting : ∀ w, ∀ t ∈ m.waitlist w, (m.thread t).state = .waiting

def Sound (m : Machine) (e : Event) : Prop := ∃ m', next idle waitpid m e = some m' ∧ Orderly m'

def OthersOff (m : Machine) (c : ℕ) : Prop :=
  ∀ p, m.proc (m.current c) = some p → ∀ t ∈ m.threads p, t ≠ m.current c →
    (m.thread t).state ≠ .ready ∧ (m.thread t).state ≠ .waiting

/-- A thread that was killed on its processor neither waits nor ends its process, one that was
killed before it was ready stays so, and no thread is killed on a queue. -/
def Clear (m : Machine) : Event → Prop
  | .wait c _ => (m.thread (m.current c)).state ≠ .exited
  | .start t _ => (m.thread t).state ≠ .exited
  | .kill c => OthersOff m c
  | .terminate c _ => OthersOff m c ∧ (m.thread (m.current c)).state ≠ .exited ∧
      ∀ p, m.proc (m.current c) = some p → m.numRunning p = 1
  | _ => True

section

variable {idle waitpid} {m m' : Machine} {c t w : ℕ} {random : ℕ → ℕ}

@[simp] theorem count_toSched (m : Machine) (t : ℕ) (d : ℤ) : (m.count t d).toSched = m.toSched := by
  unfold Machine.count
  split <;> rfl

structure Frame (m m' : Machine) : Prop where
  proc : m'.proc = m.proc
  threads : m'.threads = m.threads
  starting : m'.starting = m.starting

theorem Frame.refl (m : Machine) : Frame m m := ⟨rfl, rfl, rfl⟩

variable {m'' q : Machine}

theorem Frame.trans (h : Frame m m') (h' : Frame m' m'') : Frame m m'' :=
  ⟨h'.proc.trans h.proc, h'.threads.trans h.threads, h'.starting.trans h.starting⟩

theorem count_frame (m : Machine) (t : ℕ) (d : ℤ) : Frame m (m.count t d) := by
  unfold Machine.count
  split <;> exact ⟨rfl, rfl, rfl⟩

structure Turn (m m' : Machine) (idle : ℕ → ℕ) (c n : ℕ) (rest : List ℕ) : Prop extends
    Frame m m' where
  chosen : m.toSched.Chosen idle c n rest
  ne : m.current c ≠ n
  allowed : (m.thread n).state ≠ .exited
  waitlist : m'.waitlist = m.waitlist
  current : m'.current = update m.current c n
  queue : m'.queue = update m.queue c
    (rest ++ if (m.thread (m.current c)).state = .running ∧ m.current c ≠ idle c then [m.current c]
      else [])
  thread : m'.thread = update
    (update m.thread (m.current c)
      { m.thread (m.current c) with
        state := if (m.thread (m.current c)).state = .running then .ready
          else (m.thread (m.current c)).state
        cpu := none
        lastCpu := some c })
    n { m.thread n with state := .running, cpu := some c }

variable {curr n p : ℕ}

theorem switch_eq {next : ℕ} (h : m.switch c curr next = some m') :
    Frame m m' ∧ ((m.thread next).state ≠ .exited ∧ (m.thread next).waitingOn = none) ∧
      m'.toSched = m.setThread next { m.thread next with state := .running, cpu := some c } ∧
        m'.current = update m.current c next := by
  obtain ⟨q, hq, rfl⟩ := Option.map_eq_some_iff.mp h
  simp only [count_toSched, switchTo_eq] at hq
  have hfm := (count_frame m next 1).trans (count_frame (m.count next 1) curr (-1))
  exact ⟨⟨hfm.proc, hfm.threads, hfm.starting⟩, hq.1, hq.2, rfl⟩

theorem yield_cases (h : m.comSysSchedYieldNolock idle c = some m') :
    (m' = m ∧ m.queue c = [] ∧ (m.thread (m.current c)).state = .running) ∨
      ∃ n rest, Turn m m' idle c n rest := by
  obtain ⟨⟨q, r⟩, hsct, hrs⟩ := Option.bind_eq_some_iff.mp h
  obtain ⟨hsy, hnl, hrn⟩ | ⟨n, rest, hch, hn, hne, hlv⟩ :=
    yieldSection_cases hsct
  · cases hsy
    exact .inl ⟨(Option.some.inj hrs).symm, hnl, hrn⟩
  · subst hn
    obtain ⟨hfm, ⟨hal, -⟩, hsc, hcu⟩ := switch_eq hrs
    have hwl := congrArg waitlist hsc
    have hqu := congrArg queue hsc
    have hth := congrArg thread hsc
    refine .inr ⟨n, rest, ?_⟩
    obtain ⟨hrn, -, rfl⟩ | ⟨hrn, rfl⟩ := hlv
    all_goals
      rw [setThread_of_ne _ hne.symm] at hal
      refine ⟨⟨hfm.proc, hfm.threads, hfm.starting⟩, hch, hne, hal, hwl,
        hcu, hqu.trans ?_, hth.trans ?_⟩
      all_goals simp [hrn, setThread, setQueue, hne.symm]

variable {pending rest ts us : List ℕ}

theorem yield_chosen (hch : m.toSched.Chosen idle c n rest) (hne : m.current c ≠ n)
    (hsy : m.queue c = [] → (m.thread (m.current c)).state ≠ .running)
    (hcr : (m.thread (m.current c)).state = .running → (m.thread (m.current c)).waitingOn = none)
    (hst : (m.thread n).state ≠ .exited) (hwt : (m.thread n).waitingOn = none) :
    ∃ m', m.comSysSchedYieldNolock idle c = some m' := by
  obtain ⟨q, hq⟩ := yieldSection_chosen hch hne hsy hcr
  have hth : q.thread n = m.thread n := by
    obtain ⟨h, -⟩ | ⟨n', rest', -, -, -, ⟨-, -, h⟩ | ⟨-, h⟩⟩ := yieldSection_cases hq
    · cases h
    · rw [show q = _ from h, setThread_of_ne _ hne.symm]
      rfl
    · rw [show q = _ from h, setThread_of_ne _ hne.symm]
      rfl
  have hsw : ∃ m', { m with toSched := q }.switch c (m.current c) n = some m' := by
    have hto := (switchTo_eq (c := c)).mpr ⟨⟨hth ▸ hst, hth ▸ hwt⟩, rfl⟩
    rw [Machine.switch, count_toSched, count_toSched, hto]
    exact ⟨_, rfl⟩
  obtain ⟨m', hm'⟩ := hsw
  exact ⟨m', Option.bind_eq_some_iff.mpr ⟨_, hq, hm'⟩⟩

theorem ready_eq : m.ready random t = some m' ↔ (m.thread t).state ≠ .exited ∧ m' = { m with
      toSched := (m.setThread t { m.thread t with state := .ready, waitingOn := none }).enqueue
        (m.readyCpu t (random t)) t } := by
  simp only [Machine.ready, comSysThreadReadyNolock, Option.map_map, Option.map_eq_some_iff,
    beginReady_eq]
  constructor
  · rintro ⟨q, ⟨h, rfl⟩, rfl⟩
    exact ⟨h, rfl⟩
  · rintro ⟨h, rfl⟩
    exact ⟨_, ⟨h, rfl⟩, rfl⟩

inductive Link where
  | free
  | queue (c : ℕ)
  | waitlist (w : ℕ)
  | pending
  deriving DecidableEq

structure Linked (m : Machine) (pending : List ℕ) (t : ℕ) (l : Link) : Prop where
  queue : ∀ c, (m.queue c).count t = if l = .queue c then 1 else 0
  waitlist : ∀ w, (m.waitlist w).count t = if l = .waitlist w then 1 else 0
  pending : pending.count t = if l = .pending then 1 else 0

def Stage (isIdle : Prop) (th : Thread) : Link → Prop
  | .free => th.waitingOn = none ∧ (isIdle → th.state ≠ .exited) ∧
      (¬ isIdle → th.state ≠ .ready ∧ th.state ≠ .waiting)
  | .queue _ => ¬ isIdle ∧ th.state = .ready ∧ th.waitingOn = none
  | .waitlist w => ¬ isIdle ∧ th.state = .waiting ∧ th.waitingOn = some w
  | .pending => ¬ isIdle ∧ th.state = .waiting

variable (idle) in
def IsIdle (t : ℕ) : Prop := ∃ c, t = idle c

variable (idle) in
structure Placed (m : Machine) (pending : List ℕ) : Prop where
  staged : ∀ t, ∃ l, Linked m pending t l ∧ Stage (IsIdle idle t) (m.thread t) l
  on : ∀ c, (m.thread (m.current c)).cpu = some c
  cpu : ∀ t c, ¬ IsIdle idle t → (m.thread t).cpu = some c → m.current c = t
  home : ∀ c c', m.current c = idle c' → c' = c

def OnCpu (th : Thread) : Prop := th.state = .running ∨ th.state = .exited

def Settled (m : Machine) : Prop := ∀ c, OnCpu (m.thread (m.current c))

variable {l : Link}

theorem Linked.mem_queue (h : Linked m pending t l) : t ∈ m.queue c ↔ l = .queue c := by
  rw [← count_pos_iff, h.queue]
  split_ifs with hl <;> simp [hl]

theorem Linked.mem_waitlist (h : Linked m pending t l) : t ∈ m.waitlist w ↔ l = .waitlist w := by
  rw [← count_pos_iff, h.waitlist]
  split_ifs with hl <;> simp [hl]

theorem Placed.queued (h : Placed idle m pending) (ht : t ∈ m.queue c) :
    ¬ IsIdle idle t ∧ (m.thread t).state = .ready ∧ (m.thread t).waitingOn = none ∧
      Linked m pending t (.queue c) := by
  obtain ⟨l, hl, hsg⟩ := h.staged t
  obtain rfl := hl.mem_queue.mp ht
  exact ⟨hsg.1, hsg.2.1, hsg.2.2, hl⟩

theorem Placed.waits (h : Placed idle m pending) (ht : t ∈ m.waitlist w) :
    ¬ IsIdle idle t ∧ (m.thread t).state = .waiting ∧ (m.thread t).waitingOn = some w := by
  obtain ⟨l, hl, hsg⟩ := h.staged t
  obtain rfl := hl.mem_waitlist.mp ht
  exact hsg

theorem Placed.orderly (h : Placed idle m []) : Orderly m where
  ready _ _ ht := (h.queued ht).2.1
  waiting _ _ ht := (h.waits ht).2.1

theorem Placed.current_injective {pending : List ℕ} (h : Placed idle m pending) {c c' : ℕ}
    (heq : m.current c = m.current c') : c = c' := by
  have hon := h.on c
  rw [heq, h.on c'] at hon
  exact (Option.some.inj hon).symm

theorem Placed.of_cpu {us' : List ℕ} (hm : Placed idle m us)
    (hcu : q.current = m.current) (hcp : ∀ t, (q.thread t).cpu = (m.thread t).cpu)
    (hstg : ∀ t, ∃ l, Linked q us' t l ∧ Stage (IsIdle idle t) (q.thread t) l) :
    Placed idle q us' := by
  refine ⟨hstg, fun c => ?_, fun t c => ?_, fun c c' => ?_⟩
  · rw [hcu, hcp]
    exact hm.on c
  · rw [hcu, hcp]
    exact hm.cpu t c
  · rw [hcu]
    exact hm.home c c'

theorem Placed.off (h : Placed idle m pending) (hs : Settled m)
    (hidl : ¬ IsIdle idle t) (hst : ¬ OnCpu (m.thread t)) : (m.thread t).cpu = none := by
  cases hcp : (m.thread t).cpu with
  | none => rfl
  | some c => exact absurd (h.cpu t c hidl hcp ▸ hs c) hst

theorem Placed.chosen (h : Placed idle m []) (hch : m.toSched.Chosen idle c n rest) :
    (m.thread n).waitingOn = none ∧ (m.thread n).state ≠ .exited ∧
      (n = idle c ∧ Linked m [] n .free ∨
        ¬ IsIdle idle n ∧ (m.thread n).state = .ready ∧ Linked m [] n (.queue c)) := by
  cases hch with
  | head hqu hne =>
    obtain ⟨hidl, hrd, hwt, hl⟩ := h.queued (hqu ▸ mem_cons_self)
    exact ⟨hwt, by simp [hrd], .inr ⟨hidl, hrd, hl⟩⟩
  | idle hqu =>
    have hidl : IsIdle idle (idle c) := ⟨c, rfl⟩
    obtain ⟨l, hl, hsg⟩ := h.staged (idle c)
    cases l with
    | free => exact ⟨hsg.1, hsg.2.1 hidl, .inl ⟨rfl, hl⟩⟩
    | queue c' | waitlist w | pending => exact absurd hidl hsg.1

section

variable (h : Turn m m' idle c n rest)

include h

theorem Turn.fresh {c' : ℕ}
    (hm : Placed idle m []) (hs : ∀ c', c' ≠ c → OnCpu (m.thread (m.current c'))) (hne : c' ≠ c) :
    m.current c' ≠ n := by
  intro heq
  obtain ⟨-, -, ⟨hn, -⟩ | ⟨-, hrd, -⟩⟩ := hm.chosen h.chosen
  · exact hne (hm.home c' c (heq.trans hn)).symm
  · have := hs c' hne
    rw [heq, OnCpu, hrd] at this
    simp at this

theorem Turn.linked {l' : Link}
    (hl : Linked m [] t l) (hwl : ∀ w, l' = .waitlist w ↔ l = .waitlist w)
    (hpn : l' = .pending ↔ l = .pending) (hot : ∀ c', c' ≠ c → (l' = .queue c' ↔ l = .queue c'))
    (how : (if l' = .queue c then 1 else 0) = rest.count t +
      if (m.thread (m.current c)).state = .running ∧ m.current c ≠ idle c ∧ m.current c = t then 1
      else 0) : Linked m' [] t l' := by
  refine ⟨fun c' => ?_, fun w => ?_, ?_⟩
  · rw [h.queue]
    by_cases hc : c' = c
    · grind
    · rw [update_of_ne hc, hl.queue]
      simp [hot c' hc]
  · rw [h.waitlist, hl.waitlist]
    simp [hwl]
  · rw [hl.pending]
    simp [hpn]

theorem Turn.staged (hm : Placed idle m [])
    (t : ℕ) : ∃ l, Linked m' [] t l ∧ Stage (IsIdle idle t) (m'.thread t) l := by
  have hct := h.chosen.count t
  have hne := h.ne
  by_cases hn : t = n
  · subst hn
    have hth : m'.thread t = { m.thread t with state := .running, cpu := some c } := by
      rw [h.thread, update_self]
    obtain ⟨hwt, -, hpc⟩ := hm.chosen h.chosen
    refine ⟨.free, ?_, ?_⟩
    · obtain ⟨hidl, hl⟩ | ⟨hidl, -, hl⟩ := hpc
      all_goals
        rw [hl.queue c] at hct
        apply h.linked hl <;> grind [IsIdle]
    · rw [hth]
      exact ⟨hwt, by simp, by simp⟩
  · obtain ⟨l, hl, hsg⟩ := hm.staged t
    rw [hl.queue c] at hct
    by_cases hcr : t = m.current c ∧ (m.thread t).state = .running ∧ t ≠ idle c
    · obtain ⟨rfl, hrn, hidl⟩ := hcr
      have hno : ¬ IsIdle idle (m.current c) := by
        rintro ⟨c', hc'⟩
        exact hidl (hm.home c c' hc' ▸ hc')
      obtain rfl : l = .free := by
        cases l <;> simp_all [Stage]
      refine ⟨.queue c, ?_, ?_⟩
      · apply h.linked hl <;> grind
      · rw [h.thread, update_of_ne hn, update_self]
        exact ⟨hno, if_pos hrn, hsg.1⟩
    · refine ⟨l, ?_, ?_⟩
      · apply h.linked hl <;> grind
      · rw [h.thread, update_of_ne hn]
        by_cases ht : t = m.current c
        · subst ht
          rw [update_self]
          by_cases hrn : (m.thread (m.current c)).state = .running
          · have hidl : m.current c = idle c := by
              by_contra hidl
              exact hcr ⟨rfl, hrn, hidl⟩
            cases l <;> simp_all [Stage, IsIdle]
          · rw [if_neg hrn]
            exact hsg
        · rw [update_of_ne ht]
          exact hsg

theorem Turn.placed
    (hidl : Function.Injective idle) (hm : Placed idle m [])
    (hs : ∀ c', c' ≠ c → OnCpu (m.thread (m.current c'))) : Placed idle m' [] := by
  have hfr : ∀ c', c' ≠ c → m.current c' ≠ n := fun c' => h.fresh hm hs
  constructor
  · exact h.staged hm
  · intro c'
    rw [h.current, h.thread]
    have := hm.on
    grind
  · intro t c'
    rw [h.current, h.thread]
    have := hm.cpu
    grind
  · intro c₁ c₂
    rw [h.current]
    by_cases hc : c₁ = c
    · subst hc
      rw [update_self]
      intro heq
      obtain ⟨-, -, ⟨hn, -⟩ | ⟨hn, -⟩⟩ := hm.chosen h.chosen
      · exact hidl (heq.symm.trans hn)
      · exact absurd ⟨c₂, heq⟩ hn
    · rw [update_of_ne hc]
      exact hm.home c₁ c₂

theorem Turn.settled (hm : Placed idle m [])
    (hs : ∀ c', c' ≠ c → OnCpu (m.thread (m.current c'))) : Settled m' := by
  intro c'
  rw [h.current, h.thread]
  by_cases hc : c' = c
  · subst hc
    rw [update_self, update_self]
    exact .inl rfl
  · have hcr : m.current c' ≠ m.current c := fun heq => hc (hm.current_injective heq)
    rw [update_of_ne hc, update_of_ne (h.fresh hm hs hc), update_of_ne hcr]
    exact hs c' hc

end

structure Moves (idle : ℕ → ℕ) (m m' : Machine) : Prop extends Frame m m' where
  exited : ∀ t, (m'.thread t).state = .exited ↔ (m.thread t).state = .exited
  new : ∀ t, ¬ IsIdle idle t → (m.thread t).state = .new → (m'.thread t).state = .new

theorem Moves.refl (m : Machine) : Moves idle m m := ⟨.refl m, fun _ => .rfl, fun _ _ h => h⟩

theorem Moves.trans (h : Moves idle m m') (h' : Moves idle m' m'') : Moves idle m m'' :=
  ⟨h.toFrame.trans h'.toFrame, fun t => (h'.exited t).trans (h.exited t),
    fun t ht hnw => h'.new t ht (h.new t ht hnw)⟩

theorem Turn.moves (h : Turn m m' idle c n rest) (hm : Placed idle m []) : Moves idle m m' := by
  refine ⟨h.toFrame, fun t => ?_, fun t hidl hnw => ?_⟩
  all_goals rw [h.thread]
  · have := h.allowed
    grind
  · have hn : t ≠ n := by
      rintro rfl
      obtain ⟨-, -, ⟨hn, -⟩ | ⟨-, hrd, -⟩⟩ := hm.chosen h.chosen
      · exact hidl ⟨c, hn⟩
      · simp [hrd] at hnw
    grind

structure Keeps (idle : ℕ → ℕ) (m m' : Machine) : Prop where
  placed : Placed idle m' []
  settled : Settled m'
  moves : Moves idle m m'

theorem Placed.yield (hm : Placed idle m []) (hidl : Function.Injective idle)
    (hs : ∀ c', c' ≠ c → OnCpu (m.thread (m.current c')))
    (hrd : (m.thread (m.current c)).state ≠ .ready)
    (hrn : (m.thread (m.current c)).state ≠ .running → m.current c ≠ idle c) :
    ∃ m', m.comSysSchedYieldNolock idle c = some m' ∧ Keeps idle m m' := by
  have hyl : ∃ m', m.comSysSchedYieldNolock idle c = some m' := by
    have hwt : (m.thread (m.current c)).state = .running →
        (m.thread (m.current c)).waitingOn = none := by
      intro h
      obtain ⟨l, -, hsg⟩ := hm.staged (m.current c)
      cases l <;> simp_all [Stage]
    have hch : ∀ {n rest}, m.toSched.Chosen idle c n rest → m.current c ≠ n →
        (m.queue c = [] → (m.thread (m.current c)).state ≠ .running) →
          ∃ m', m.comSysSchedYieldNolock idle c = some m' := fun h hne hsy =>
      have hn := hm.chosen h
      yield_chosen h hne hsy hwt hn.2.1 hn.1
    cases hqu : m.queue c with
    | nil =>
      by_cases hst : (m.thread (m.current c)).state = .running
      · refine ⟨m, Option.bind_eq_some_iff.mpr ⟨(m.toSched, none), ?_, rfl⟩⟩
        simp [yieldSection, hqu, hst]
      · exact hch (.idle hqu) (hrn hst) fun _ => hst
    | cons n rest =>
      obtain ⟨hno, hn, -, -⟩ := hm.queued (c := c) (hqu ▸ mem_cons_self)
      apply hch (.head hqu fun h => hno ⟨c, h⟩)
      · rintro rfl
        exact hrd hn
      · simp [hqu]
  obtain ⟨m', hm'⟩ := hyl
  refine ⟨m', hm', ?_⟩
  obtain ⟨rfl, -, hst⟩ | ⟨n, rest, h⟩ := yield_cases hm'
  · refine ⟨hm, fun c' => ?_, .refl _⟩
    by_cases hc : c' = c
    · exact hc ▸ .inl hst
    · exact hs c' hc
  · exact ⟨h.placed hidl hm hs, h.settled hm hs, h.moves hm⟩

theorem Placed.ready (hm : Placed idle m us) (random : ℕ → ℕ)
    (us' : List ℕ) (hl : Linked m us t l) (hlk : l = .pending ∨ l = .free)
    (hus : ∀ u, us.count u = us'.count u + if u = t ∧ l = .pending then 1 else 0)
    (hno : ¬ IsIdle idle t) (hst : (m.thread t).state ≠ .exited) :
    ∃ m', m.ready random t = some m' ∧ Placed idle m' us' ∧ Frame m m' ∧ m'.current = m.current ∧
        m'.thread = update m.thread t { m.thread t with state := .ready, waitingOn := none } := by
  refine ⟨_, ready_eq.mpr ⟨hst, rfl⟩, ?_, ⟨rfl, rfl, rfl⟩, rfl, rfl⟩
  have hne : ∀ {u}, u ≠ t → ∀ th, update m.thread t th u = m.thread u := fun h th =>
    update_of_ne h _ _
  refine hm.of_cpu rfl ?_ ?_
  · intro u
    dsimp only [enqueue, setQueue, setThread]
    grind
  · intro u
    by_cases hu : u = t
    · subst hu
      refine ⟨.queue (m.readyCpu u (random u)), ⟨fun c => ?_, fun w => ?_, ?_⟩, ?_⟩
      · have := hl.queue c
        simp only [enqueue, setQueue, setThread]
        grind
      · have := hl.waitlist w
        simp only [enqueue, setQueue, setThread]
        grind
      · have := hl.pending
        grind
      · dsimp only [enqueue, setQueue, setThread]
        rw [update_self]
        exact ⟨hno, rfl, rfl⟩
    · obtain ⟨l', hl', hsg⟩ := hm.staged u
      refine ⟨l', ⟨fun c => ?_, fun w => hl'.waitlist w, ?_⟩, ?_⟩
      · have := hl'.queue c
        simp only [enqueue, setQueue, setThread]
        grind
      · have := hl'.pending
        grind
      · dsimp only [enqueue, setQueue, setThread]
        rw [hne hu]
        exact hsg

theorem Placed.ready_pending (hm : Placed idle m (t :: us)) (hs : Settled m) (random : ℕ → ℕ) :
    ∃ m', m.ready random t = some m' ∧ Placed idle m' us ∧ Settled m' ∧ Moves idle m m' ∧
      m'.current = m.current := by
  obtain ⟨l, hl, hsg⟩ := hm.staged t
  obtain rfl : l = .pending := by
    have := hl.pending
    grind
  obtain ⟨hno, hst⟩ := hsg
  have hof : ∀ c, m.current c ≠ t := by
    rintro c rfl
    have := hs c
    simp [OnCpu, hst] at this
  obtain ⟨m', hrd, hpl, hfm, hcu, hth⟩ :=
    hm.ready random us hl (.inl rfl) (by grind) hno (by simp [hst])
  refine ⟨m', hrd, hpl, fun c => ?_, ⟨hfm, fun u => ?_, fun u _ => ?_⟩, hcu⟩
  · rw [hcu, hth, update_of_ne (hof c)]
    exact hs c
  · rw [hth]
    grind
  · rw [hth]
    grind

theorem Placed.readyAll (hm : Placed idle m us) (hs : Settled m) (random : ℕ → ℕ) :
    ∃ m', us.foldlM (Machine.ready · random) m = some m' ∧ Keeps idle m m' ∧
      m'.current = m.current := by
  induction us generalizing m with
  | nil => exact ⟨m, rfl, ⟨hm, hs, .refl m⟩, rfl⟩
  | cons t us ih =>
    obtain ⟨m₁, hrd, hm₁, hs₁, hmv, hcu⟩ := hm.ready_pending hs random
    obtain ⟨m', hrs, hkp, hcu'⟩ := ih hm₁ hs₁
    refine ⟨m', ?_, ⟨hkp.placed, hkp.settled, hmv.trans hkp.moves⟩, hcu'.trans hcu⟩
    rw [foldlM_cons, hrd]
    exact hrs

section

variable (hm : Placed idle m [])

include hm

theorem Placed.take (w : ℕ) (us rest : List ℕ)
    (hus : ∀ t, (m.waitlist w).count t = us.count t + rest.count t) :
    Placed idle { m with toSched := m.setWaitlist w rest } us := by
  refine hm.of_cpu rfl (fun _ => rfl) fun t => ?_
  obtain ⟨l, hl, hsg⟩ := hm.staged t
  have hct := hus t
  rw [hl.waitlist w] at hct
  have hrs : ∀ w', update m.waitlist w rest w' = if w' = w then rest else m.waitlist w' :=
    fun w' => update_apply _ _ _ _
  by_cases ht : t ∈ us
  · obtain rfl : l = .waitlist w := by grind
    refine ⟨.pending, ⟨fun c => ?_, fun w' => ?_, ?_⟩, hsg.1, hsg.2.1⟩
    · exact hl.queue c
    · have := hl.waitlist w'
      simp only [setWaitlist, hrs]
      grind
    · grind
  · have hz := count_eq_zero.mpr ht
    refine ⟨l, ⟨hl.queue, fun w' => ?_, ?_⟩, hsg⟩
    · have := hl.waitlist w'
      simp only [setWaitlist, hrs]
      grind
    · have := hl.pending
      simp_all

theorem Placed.notifyN (hs : Settled m) (w n : ℕ) (random : ℕ → ℕ) :
    ∃ m', m.notifyN w n random = some m' ∧ Keeps idle m m' ∧ m'.current = m.current := by
  have htk := hm.take w ((m.waitlist w).take n) ((m.waitlist w).drop n)
    fun t => by rw [← count_append, take_append_drop]
  obtain ⟨m', hrd, hkp, hcu⟩ := htk.readyAll hs random
  refine ⟨m', hrd, ⟨hkp.placed, hkp.settled, ?_⟩, hcu⟩
  exact ⟨⟨hkp.moves.proc, hkp.moves.threads, hkp.moves.starting⟩, hkp.moves.exited, hkp.moves.new⟩

theorem Placed.notifyThread (hs : Settled m) (t : ℕ) (random : ℕ → ℕ) :
    ∃ m', m.comSysSchedNotifyThread t random = some m' ∧ Keeps idle m m' := by
  unfold Machine.comSysSchedNotifyThread
  split
  · exact ⟨m, rfl, hm, hs, .refl m⟩
  · next w hw =>
    obtain ⟨l, hl, hsg⟩ := hm.staged t
    obtain rfl : l = .waitlist w := by
      have := hl.pending
      cases l <;> simp_all [Stage]
    have hme := hl.mem_waitlist.mpr rfl
    have hcp := hm.off hs hsg.1 (by simp [OnCpu, hsg.2.1])
    rw [if_pos ⟨hcp, hme⟩]
    have htk := hm.take w [t] ((m.waitlist w).erase t) fun u => by
      grind
    obtain ⟨m', hrd, hpl, hstt, hmv, -⟩ := htk.ready_pending hs random
    refine ⟨m', hrd, hpl, hstt, ?_⟩
    exact ⟨⟨hmv.proc, hmv.threads, hmv.starting⟩, hmv.exited, hmv.new⟩

theorem Placed.current_becomes {th : Thread}
    (hno : ¬ IsIdle idle (m.current c)) (hrn : (m.thread (m.current c)).state = .running)
    (hth : q.thread = update m.thread (m.current c) th)
    (hcp : th.cpu = (m.thread (m.current c)).cpu) (hcu : q.current = m.current)
    (hl : Linked m [] (m.current c) .free → Linked q [] (m.current c) l)
    (hsg : (m.thread (m.current c)).waitingOn = none → Stage False th l)
    (hot : ∀ t l, t ≠ m.current c → Linked m [] t l → Linked q [] t l) : Placed idle q [] := by
  apply hm.of_cpu hcu
  · intro t
    rw [hth]
    grind
  · intro t
    rw [hth]
    obtain ⟨l', hl', hsg'⟩ := hm.staged t
    by_cases ht : t = m.current c
    · subst ht
      obtain rfl : l' = .free := by
        cases l' <;> simp_all [Stage]
      rw [update_self]
      exact ⟨l, hl hl', by simpa only [hno] using hsg hsg'.1⟩
    · rw [update_of_ne ht]
      exact ⟨l', hot t l' ht hl', hsg'⟩

theorem Placed.not_idle (hne : m.current c ≠ idle c) :
    ¬ IsIdle idle (m.current c) := by
  rintro ⟨c', hc'⟩
  exact hne (hm.home c c' hc' ▸ hc')

theorem Placed.wait (hidl : Function.Injective idle) (hs : Settled m)
    (hne : m.current c ≠ idle c) (hst : (m.thread (m.current c)).state ≠ .exited) (w : ℕ) :
    ∃ m', m.comSysSchedWait idle c w = some m' ∧ Keeps idle m m' := by
  have hrn : (m.thread (m.current c)).state = .running := (hs c).resolve_right hst
  obtain ⟨q, hq⟩ : ∃ q : Machine, q = { m with
    toSched := (m.setThread (m.current c)
      { m.thread (m.current c) with state := .waiting, waitingOn := some w }).insertWait
        (m.current c) w } := ⟨_, rfl⟩
  have hth : q.thread = update m.thread (m.current c)
      { m.thread (m.current c) with state := .waiting, waitingOn := some w } := by
    rw [hq]
    rfl
  have hcu : q.current = m.current := by rw [hq]
  have hqu : q.queue = m.queue := by rw [hq]; rfl
  have hwl : q.waitlist = update m.waitlist w (m.waitlist w ++ [m.current c]) := by
    rw [hq]
    rfl
  have hpl : Placed idle q [] := by
    apply hm.current_becomes (l := .waitlist w) (hm.not_idle hne) hrn hth rfl hcu
    · intro hl
      refine ⟨fun c' => hqu ▸ hl.queue c', fun w' => ?_, hl.pending⟩
      have := hl.waitlist w'
      rw [hwl]
      grind
    · exact fun _ => ⟨not_false, rfl, rfl⟩
    · intro t l ht hl
      refine ⟨fun c' => hqu ▸ hl.queue c', fun w' => ?_, hl.pending⟩
      have := hl.waitlist w'
      rw [hwl]
      grind
  have hmv : Moves idle m q := by
    refine ⟨⟨by rw [hq], by rw [hq], by rw [hq]⟩, fun t => ?_, fun t _ => ?_⟩
    all_goals
      rw [hth]
      grind
  have hyl := hpl.yield (c := c) hidl (fun c' hc => by
      rw [hcu, hth, update_of_ne fun h => hc (hm.current_injective h)]
      exact hs c')
    (by rw [hcu, hth, update_self]; simp) (fun _ => hcu ▸ hne)
  obtain ⟨m', hm', hkp⟩ := hyl
  refine ⟨m', ?_, hkp.placed, hkp.settled, hmv.trans hkp.moves⟩
  rw [Machine.comSysSchedWait, beginWait_eq.mpr ⟨hst, rfl⟩, ← hm', hq]
  rfl

end

variable (idle) in
structure Procs (m : Machine) : Prop where
  nodup : ∀ p, (m.threads p).Nodup
  mem_iff : ∀ t p, t ∈ m.threads p ↔ m.proc t = some p ∧ (m.thread t).state ≠ .exited
  idle_proc : ∀ c, m.proc (idle c) = none
  starting : ∀ t, m.starting t = true →
    ¬ IsIdle idle t ∧ ((m.thread t).state = .new ∨ (m.thread t).state = .exited)

variable (idle) in
structure Inv (m : Machine) : Prop where
  placed : Placed idle m []
  settled : Settled m
  procs : Procs idle m

theorem Procs.moves (h : Procs idle m) (hm : Moves idle m m') : Procs idle m' where
  nodup p := hm.threads ▸ h.nodup p
  mem_iff t p := by
    rw [hm.threads, hm.proc, h.mem_iff, ne_eq, ne_eq, hm.exited]
  idle_proc c := hm.proc ▸ h.idle_proc c
  starting t ht := by
    obtain ⟨hno, hst⟩ := h.starting t (hm.starting ▸ ht)
    exact ⟨hno, hst.imp (hm.new t hno) (hm.exited t).mpr⟩

theorem Inv.keeps (h : Inv idle m) (hk : Keeps idle m m') : Inv idle m' :=
  ⟨hk.placed, hk.settled, h.procs.moves hk.moves⟩

theorem Procs.not_idle (h : Procs idle m) (ht : m.proc t = some p) : ¬ IsIdle idle t := by
  rintro ⟨c, rfl⟩
  simp [h.idle_proc c] at ht

theorem Inv.newThread (h : Inv idle m) (hnw : (m.thread t).state = .new)
    (hno : ¬ IsIdle idle t) (hpr : m.proc t = none) : Inv idle (m.newThread t p) := by
  refine ⟨⟨fun t => ?_, h.placed.on, h.placed.cpu, h.placed.home⟩, h.settled, ?_⟩
  · obtain ⟨l, hl, hsg⟩ := h.placed.staged t
    exact ⟨l, ⟨hl.queue, hl.waitlist, hl.pending⟩, hsg⟩
  · have hme : t ∉ m.threads p := by
      rw [h.procs.mem_iff, hpr]
      simp
    refine ⟨fun p' => ?_, fun u p' => ?_, fun c => ?_, fun u hu => ?_⟩
    · have := h.procs.nodup p'
      simp only [Machine.newThread]
      grind
    · have := h.procs.mem_iff u p'
      simp only [Machine.newThread]
      grind
    · have := h.procs.idle_proc c
      simp only [Machine.newThread]
      rwa [update_of_ne fun heq => hno ⟨c, heq.symm⟩]
    · have := h.procs.starting u
      simp only [Machine.newThread] at hu ⊢
      grind

theorem Inv.start (h : Inv idle m) (ht : m.starting t = true) (hst : (m.thread t).state ≠ .exited)
    (random : ℕ → ℕ) : ∃ m', m.start t random = some m' ∧ Inv idle m' := by
  obtain ⟨hno, hnw⟩ := h.procs.starting t ht
  have hnw := hnw.resolve_right hst
  obtain ⟨l, hl, hsg⟩ := h.placed.staged t
  obtain rfl : l = .free := by
    cases l <;> simp_all [Stage]
  have hof : ∀ c, m.current c ≠ t := by
    rintro c rfl
    have := h.settled c
    simp [OnCpu, hnw] at this
  have hpl : Placed idle { m with starting := update m.starting t false } [] :=
    h.placed.of_cpu rfl (fun _ => rfl) fun u => by
      obtain ⟨l, hl, hsg⟩ := h.placed.staged u
      exact ⟨l, ⟨hl.queue, hl.waitlist, hl.pending⟩, hsg⟩
  obtain ⟨m', hrd, hm', hfm, hcu, hth⟩ :=
    hpl.ready random [] ⟨hl.queue, hl.waitlist, hl.pending⟩ (.inr rfl) (by simp) hno hst
  have hpr : m'.proc = m.proc := hfm.proc
  have hthr : m'.threads = m.threads := hfm.threads
  have hsr : m'.starting = update m.starting t false := hfm.starting
  refine ⟨m', hrd, hm', fun c => ?_, fun p => ?_, fun u p => ?_, fun c => ?_, fun u hu => ?_⟩
  · rw [hcu, hth]
    rw [update_of_ne (hof c)]
    exact h.settled c
  · exact hthr ▸ h.procs.nodup p
  · have := h.procs.mem_iff u p
    rw [hthr, hpr, hth]
    grind
  · exact hpr ▸ h.procs.idle_proc c
  · have := h.procs.starting u
    rw [hsr] at hu
    rw [hth]
    grind

def Machine.killed (m : Machine) (p curr : ℕ) (ts : List ℕ) : Machine :=
  { m with
    thread := fun t =>
      if t ∈ ts ∧ t ≠ curr then { m.thread t with state := .exited } else m.thread t
    threads := update m.threads p
      ((m.threads p).filter fun t => t = curr ∨ t ∉ ts) }

theorem transition_exited (h : (m.thread t).state ≠ .exited) :
    m.transition t .exited = some (m.setThread t { m.thread t with state := .exited }) :=
  transition_eq.mpr ⟨h, rfl⟩

theorem killOther_eq (ht : t ∈ m.threads p) (hne : t ≠ curr)
    (hnd : (m.threads p).Nodup) (hst : (m.thread t).state ≠ .exited)
    (hcp : (m.thread t).cpu ≠ some c) :
    m.killOther idle p c curr t = some (m.killed p curr [t]) := by
  rw [Machine.killOther, if_neg hne, Machine.comSysThreadExitNolock, transition_exited hst]
  dsimp only [bind_some]
  rw [setThread_self, if_neg hcp, bind_some, Machine.comSysProcRemoveThreadNolock,
    if_pos ht]
  have hth : update m.thread t { m.thread t with state := .exited } =
      fun u => if u ∈ [t] ∧ u ≠ curr then { m.thread u with state := .exited } else m.thread u := by
    funext u
    grind
  have hthr : (m.threads p).erase t =
      (m.threads p).filter fun u => u = curr ∨ u ∉ [t] := by
    rw [hnd.erase_eq_filter]
    apply filter_congr
    intro u _
    grind
  rw [Machine.killed, ← hth, ← hthr]
  rfl

theorem killed_congr (h : ∀ t, t ≠ curr → (t ∈ ts ↔ t ∈ us)) :
    m.killed p curr ts = m.killed p curr us := by
  have hth : ∀ t, (t ∈ ts ∧ t ≠ curr ↔ t ∈ us ∧ t ≠ curr) := fun t =>
    and_congr_left fun ht => h t ht
  have hthr : ∀ t, (t = curr ∨ t ∉ ts ↔ t = curr ∨ t ∉ us) := by
    intro t
    have := h t
    tauto
  simp only [Machine.killed, hth, hthr]

theorem killed_nil (m : Machine) (p curr : ℕ) : m.killed p curr [] = m := by
  have hthr : (m.threads p).filter (fun t => t = curr ∨ t ∉ []) = m.threads p :=
    filter_eq_self.mpr (by simp)
  rw [Machine.killed, hthr, update_eq_self]
  simp

theorem killed_killed (m : Machine) (p curr t : ℕ) (ts : List ℕ) :
    (m.killed p curr [t]).killed p curr ts = m.killed p curr (t :: ts) := by
  have hth : ((m.killed p curr [t]).killed p curr ts).thread =
      (m.killed p curr (t :: ts)).thread := by
    funext u
    simp only [Machine.killed]
    grind
  have hthr : ((m.killed p curr [t]).killed p curr ts).threads =
      (m.killed p curr (t :: ts)).threads := by
    simp only [Machine.killed, update_self, update_idem, filter_filter]
    congr 1
    apply filter_congr
    intro u _
    grind
  simp only [Machine.killed] at hth hthr ⊢
  rw [hth, hthr]

theorem killOthers_eq (hts : ts.Nodup)
    (hnd : (m.threads p).Nodup) (h : ∀ t ∈ ts, t ≠ curr → t ∈ m.threads p ∧
      (m.thread t).state ≠ .exited ∧ (m.thread t).cpu ≠ some c) :
    ts.foldlM (Machine.killOther idle · p c curr) m = some (m.killed p curr ts) := by
  induction ts generalizing m with
  | nil =>
    rw [killed_nil]
    rfl
  | cons t ts ih =>
    obtain ⟨ht, hts⟩ := nodup_cons.mp hts
    rw [foldlM_cons]
    by_cases hcr : t = curr
    · subst hcr
      rw [show m.killed p t (t :: ts) = m.killed p t ts from killed_congr fun u hu => by simp [hu],
        ← ih hts hnd fun u hu => h u (.tail _ hu)]
      simp [Machine.killOther]
    · obtain ⟨hme, hst, hcp⟩ := h t (.head _) hcr
      rw [killOther_eq hme hcr hnd hst hcp, ← killed_killed m p curr t ts]
      apply ih hts
      · simp only [Machine.killed, update_self]
        exact List.Pairwise.filter _ hnd
      · intro u hu hne
        have hut : u ≠ t := fun heq => ht (heq ▸ hu)
        obtain ⟨hu, hrs⟩ := h u (.tail _ hu) hne
        simp [Machine.killed, hut, hu, hrs]

section

variable (h : Inv idle m)

include h

theorem Inv.kill_eq : m.comSysProcKillOtherThreadsNolock idle p c =
      some (m.killed p (m.current c) (m.threads p)) := by
  apply killOthers_eq (h.procs.nodup p) (h.procs.nodup p)
  intro t ht hne
  obtain ⟨hpr, hst⟩ := (h.procs.mem_iff t p).mp ht
  refine ⟨ht, hst, fun hcp => ?_⟩
  exact hne (h.placed.cpu t c (h.procs.not_idle hpr) hcp).symm

theorem Inv.killed (hof : ∀ t ∈ m.threads p, t ≠ m.current c →
      (m.thread t).state ≠ .ready ∧ (m.thread t).state ≠ .waiting) :
    Inv idle (m.killed p (m.current c) (m.threads p)) := by
  refine ⟨h.placed.of_cpu rfl (fun t => ?_) fun t => ?_, fun c' => ?_, ?_⟩
  · simp only [Machine.killed]
    split_ifs <;> rfl
  · obtain ⟨l, hl, hsg⟩ := h.placed.staged t
    refine ⟨l, ⟨hl.queue, hl.waitlist, hl.pending⟩, ?_⟩
    simp only [Machine.killed]
    split_ifs with ht
    · have hno := h.procs.not_idle ((h.procs.mem_iff t p).mp ht.1).1
      cases l <;> simp_all [Stage]
    · exact hsg
  · have := h.settled c'
    simp only [Machine.killed]
    split_ifs
    · exact .inr rfl
    · exact this
  · refine ⟨fun p' => ?_, fun t p' => ?_, h.procs.idle_proc, fun t ht => ?_⟩
    · have := h.procs.nodup p'
      simp only [Machine.killed]
      by_cases hp : p' = p
      · subst hp
        rw [update_self]
        exact List.Pairwise.filter _ this
      · rwa [update_of_ne hp]
    · have := h.procs.mem_iff t p'
      have := h.procs.mem_iff t p
      simp only [Machine.killed]
      grind
    · have := h.procs.starting t ht
      simp only [Machine.killed]
      grind

theorem Inv.exitLast (hidl : Function.Injective idle)
    (hpr : m.proc (m.current c) = some p) (hst : (m.thread (m.current c)).state ≠ .exited) :
    ∃ m', (m.comSysProcRemoveThreadNolock p (m.current c)).bind
      (Machine.comSysThreadExitNolock idle · c (m.current c)) = some m' ∧ Inv idle m' := by
  have hme : m.current c ∈ m.threads p := (h.procs.mem_iff _ p).mpr ⟨hpr, hst⟩
  have hno := h.procs.not_idle hpr
  obtain ⟨q, hq⟩ : ∃ q : Machine, q = { m with
    toSched := m.setThread (m.current c) { m.thread (m.current c) with state := .exited }
    threads := update m.threads p ((m.threads p).erase (m.current c)) } := ⟨_, rfl⟩
  have hth : q.thread = update m.thread (m.current c)
      { m.thread (m.current c) with state := .exited } := by
    rw [hq]
    rfl
  have hcu : q.current = m.current := by rw [hq]
  have hln : ∀ t l, Linked m [] t l → Linked q [] t l := by
    intro t l hl
    rw [hq]
    exact ⟨hl.queue, hl.waitlist, hl.pending⟩
  have hpl : Placed idle q [] := by
    apply h.placed.current_becomes hno ((h.settled c).resolve_right hst) hth rfl hcu
      (hln _ .free)
    · exact fun hwt => ⟨hwt, nofun, fun _ => ⟨nofun, nofun⟩⟩
    · exact fun t l _ => hln t l
  have hprc : Procs idle q := by
    refine ⟨fun p' => ?_, fun t p' => ?_, fun c' => ?_, fun t ht => ?_⟩
    · have := h.procs.nodup p'
      rw [hq]
      grind
    · have := h.procs.mem_iff t p'
      have := h.procs.nodup p'
      rw [hth, hq]
      grind
    · rw [hq]
      exact h.procs.idle_proc c'
    · have := h.procs.starting t (by rwa [hq] at ht)
      rw [hth]
      grind
  have hyl := hpl.yield (c := c) hidl (fun c' hc => by
      rw [hcu, hth, update_of_ne fun h' => hc (h.placed.current_injective h')]
      exact h.settled c')
    (by rw [hcu, hth, update_self]; simp)
    (fun _ => hcu ▸ fun heq => hno ⟨c, heq⟩)
  obtain ⟨m', hm', hkp⟩ := hyl
  refine ⟨m', ?_, hkp.placed, hkp.settled, hprc.moves hkp.moves⟩
  rw [Machine.comSysProcRemoveThreadNolock, if_pos hme, bind_some,
    Machine.comSysThreadExitNolock, transition_exited hst]
  dsimp only [bind_some]
  rw [setThread_self, if_pos (h.placed.on c), ← hm', hq]

theorem Inv.setExited (exited : ℕ → Bool) : Inv idle { m with exited := exited } :=
  ⟨h.placed.of_cpu rfl (fun _ => rfl) fun t =>
      have ⟨l, hl, hsg⟩ := h.placed.staged t
      ⟨l, ⟨hl.queue, hl.waitlist, hl.pending⟩, hsg⟩,
    h.settled, h.procs.nodup, h.procs.mem_iff, h.procs.idle_proc, h.procs.starting⟩

theorem Inv.killAndExit (waitpid : ℕ → ℕ) (hof : ∀ t ∈ m.threads p, t ≠ m.current c →
      (m.thread t).state ≠ .ready ∧ (m.thread t).state ≠ .waiting)
    (hnm : m.numRunning p = 1) (random : ℕ → ℕ) :
    ∃ m', (m.comSysProcKillOtherThreadsNolock idle p c).bind
      (Machine.comSysProcExit waitpid · p random) = some m' ∧ Inv idle m' ∧
        m'.current = m.current ∧ m'.proc = m.proc ∧ ((m'.thread (m.current c)).state = .exited ↔
            (m.thread (m.current c)).state = .exited) := by
  have hiv := (h.killed hof).setExited (update m.exited p true)
  obtain ⟨m', hm', hkp, hcu⟩ := hiv.placed.notifyN hiv.settled (waitpid p)
    (m.waitlist (waitpid p)).length random
  refine ⟨m', ?_, hiv.keeps hkp, hcu, hkp.moves.proc, ?_⟩
  · rw [h.kill_eq, bind_some, Machine.comSysProcExit]
    exact (if_pos hnm).trans hm'
  · rw [hkp.moves.exited]
    simp [Machine.killed]

theorem Inv.terminate (hidl : Function.Injective idle)
    (hpr : m.proc (m.current c) = some p) (hof : ∀ t ∈ m.threads p, t ≠ m.current c →
      (m.thread t).state ≠ .ready ∧ (m.thread t).state ≠ .waiting)
    (hnm : m.numRunning p = 1) (waitpid random : ℕ → ℕ) :
    if (m.thread (m.current c)).state = .exited then
      m.comSysProcTerminate idle waitpid p c random = none
    else ∃ m', m.comSysProcTerminate idle waitpid p c random = some m' ∧ Inv idle m' := by
  obtain ⟨m₁, hm₁, hiv, hcu, hpr₁, het⟩ :=
    h.killAndExit waitpid hof hnm random
  rw [Machine.comSysProcTerminate, hm₁, bind_some]
  split_ifs with hst
  · have hme : m.current c ∉ m₁.threads p := by
      rw [hiv.procs.mem_iff]
      exact fun hme => hme.2 (het.mpr hst)
    rw [Machine.comSysProcRemoveThreadNolock, if_neg hme, Option.bind_none]
  · have hls := hiv.exitLast (c := c) (p := p) hidl
    rw [hcu, hpr₁] at hls
    exact hls hpr (het.not.mpr hst)

end

structure Stuck (m : Machine) (t : ℕ) : Prop where
  exited : (m.thread t).state = .exited
  queued : (∃ c, t ∈ m.queue c) ∨ ∃ w, t ∈ m.waitlist w

theorem Stuck.not_orderly (h : Stuck m t) : ¬ Orderly m := by
  intro hor
  obtain ⟨c, hc⟩ | ⟨w, hw⟩ := h.queued
  · exact absurd (hor.ready c t hc) (by simp [h.exited])
  · exact absurd (hor.waiting w t hw) (by simp [h.exited])

theorem stuck_of_readyAll (h : us.foldlM (Machine.ready · random) m = some m')
    (het : (m.thread t).state = .exited)
    (ht : t ∈ us ∨ (∃ c, t ∈ m.queue c) ∨ ∃ w, t ∈ m.waitlist w) : Stuck m' t := by
  induction us generalizing m with
  | nil =>
    obtain rfl : m = m' := Option.some.inj h
    exact ⟨het, ht.resolve_left not_mem_nil⟩
  | cons u us ih =>
    obtain ⟨m₁, hrd, h⟩ := Option.bind_eq_some_iff.mp h
    obtain ⟨hu, rfl⟩ := ready_eq.mp hrd
    have hne : t ≠ u := fun heq => hu (heq ▸ het)
    apply ih h
    · dsimp only [enqueue, setQueue, setThread]
      rwa [update_of_ne hne]
    · obtain ht | ⟨c, hc⟩ | hw := ht
      · exact .inl (mem_of_ne_of_mem hne ht)
      · refine .inr (.inl ⟨c, ?_⟩)
        dsimp only [enqueue, setQueue, setThread]
        grind
      · exact .inr (.inr hw)

theorem Stuck.notifyN (h : Stuck m t) (hm : m.notifyN w n random = some m') : Stuck m' t := by
  apply stuck_of_readyAll hm h.exited
  obtain ⟨c, hc⟩ | ⟨w', hw⟩ := h.queued
  · exact .inr (.inl ⟨c, hc⟩)
  · by_cases hne : w' = w
    · subst hne
      rw [← take_append_drop n (m.waitlist w')] at hw
      refine (mem_append.mp hw).imp_right fun hw => .inr ⟨w', ?_⟩
      dsimp only [setWaitlist]
      rwa [update_self]
    · refine .inr (.inr ⟨w', ?_⟩)
      dsimp only [setWaitlist]
      rwa [update_of_ne hne]

theorem Stuck.yield (h : Stuck m t) (hm : m.comSysSchedYieldNolock idle c = some m') :
    Stuck m' t := by
  obtain ⟨rfl, -⟩ | ⟨n, rest, htr⟩ := yield_cases hm
  · exact h
  · have het := h.exited
    have hn : t ≠ n := fun heq => htr.allowed (heq ▸ het)
    refine ⟨?_, ?_⟩
    · rw [htr.thread]
      grind
    · rw [htr.queue, htr.waitlist]
      refine h.queued.imp_left fun ⟨c', hc'⟩ => ⟨c', ?_⟩
      have hch := htr.chosen
      cases hch <;> grind

theorem Stuck.exit {u : ℕ} (h : Stuck m t) (hm : m.comSysThreadExitNolock idle c u = some m') :
    Stuck m' t := by
  obtain ⟨q, hq, hm⟩ := Option.bind_eq_some_iff.mp hm
  obtain ⟨hu, rfl⟩ := transition_eq.mp hq
  have hne : t ≠ u := fun heq => hu (heq ▸ h.exited)
  have hstc : Stuck { m with
      toSched := m.setThread u { m.thread u with state := .exited } } t :=
    ⟨by rw [setThread_of_ne _ hne]; exact h.exited, h.queued⟩
  split_ifs at hm with hcp
  · exact hstc.yield hm
  · exact Option.some.inj hm ▸ hstc

theorem Inv.killed_stuck (h : Inv idle m) (ht : t ∈ m.threads p) (hne : t ≠ m.current c)
    (hst : (m.thread t).state = .ready ∨ (m.thread t).state = .waiting) :
    Stuck (m.killed p (m.current c) (m.threads p)) t := by
  refine ⟨by simp [Machine.killed, ht, hne], ?_⟩
  have hno := h.procs.not_idle ((h.procs.mem_iff t p).mp ht).1
  obtain ⟨l, hl, hsg⟩ := h.placed.staged t
  cases l with
  | free => exact absurd (hsg.2.2 hno) (by tauto)
  | queue c' => exact .inl ⟨c', hl.mem_queue.mpr rfl⟩
  | waitlist w => exact .inr ⟨w, hl.mem_waitlist.mpr rfl⟩
  | pending => exact absurd hl.pending (by simp)

theorem Inv.terminate_stuck (h : Inv idle m) (ht : t ∈ m.threads p)
    (hne : t ≠ m.current c) (hst : (m.thread t).state = .ready ∨ (m.thread t).state = .waiting)
    (hm' : m.comSysProcTerminate idle waitpid p c random = some m') : Stuck m' t := by
  have hstc := h.killed_stuck ht hne hst
  rw [Machine.comSysProcTerminate, h.kill_eq, bind_some] at hm'
  obtain ⟨m₃, hm₃, hei⟩ := Option.bind_eq_some_iff.mp hm'
  obtain ⟨m₂, hm₂, hrm⟩ := Option.bind_eq_some_iff.mp hm₃
  have hstc₂ : Stuck m₂ t := by
    unfold Machine.comSysProcExit at hm₂
    split_ifs at hm₂
    refine Stuck.notifyN ?_ hm₂
    exact ⟨hstc.exited, hstc.queued⟩
  have hstc₃ : Stuck m₃ t := by
    unfold Machine.comSysProcRemoveThreadNolock at hrm
    split_ifs at hrm
    exact Option.some.inj hrm ▸ ⟨hstc₂.exited, hstc₂.queued⟩
  exact hstc₃.exit hei

variable {e : Event}

theorem Inv.step (h : Inv idle m) (hidl : Function.Injective idle)
    (he : Enabled idle m e) (hcl : Clear m e) (waitpid : ℕ → ℕ) :
    ∃ m', next idle waitpid m e = some m' ∧ Inv idle m' := by
  have hkp : ∀ {r}, (∃ m', r = some m' ∧ Keeps idle m m') →
      ∃ m', r = some m' ∧ Inv idle m' := fun ⟨m', hm', hk⟩ => ⟨m', hm', h.keeps hk⟩
  have hnt : ∀ w n random, ∃ m', m.notifyN w n random = some m' ∧ Inv idle m' :=
    fun w n random =>
      have ⟨m', hm', hk, _⟩ := h.placed.notifyN h.settled w n random
      ⟨m', hm', h.keeps hk⟩
  cases e with
  | yield c =>
    refine hkp (h.placed.yield hidl (fun c' _ => h.settled c') ?_ fun hrn heq => ?_)
    · obtain hc | hc := h.settled c <;> simp [hc]
    · have het := (h.settled c).resolve_left hrn
      obtain ⟨l, -, hsg⟩ := h.placed.staged (m.current c)
      have hi : IsIdle idle (m.current c) := ⟨c, heq⟩
      cases l <;> simp_all [Stage]
  | wait c w => exact hkp (h.placed.wait hidl h.settled he hcl w)
  | notify w random => exact hnt w 1 random
  | notifyAll w random => exact hnt w _ random
  | notifyN w n random => exact hnt w n random
  | notifyThread t random => exact hkp (h.placed.notifyThread h.settled t random)
  | create t p =>
    obtain ⟨hnw, hne, hpr, -⟩ := he
    exact ⟨_, rfl, h.newThread hnw (fun ⟨c, hc⟩ => hne c hc) hpr⟩
  | start t random => exact h.start he hcl random
  | kill c =>
    obtain ⟨p, hp⟩ := Option.ne_none_iff_exists'.mp he
    refine ⟨_, ?_, h.killed (hcl p hp)⟩
    rw [next, hp]
    exact h.kill_eq
  | terminate c random =>
    obtain ⟨p, hp⟩ := Option.ne_none_iff_exists'.mp he
    obtain ⟨hof, hst, hnm⟩ := hcl
    have htm := h.terminate hidl hp (hof p hp) (hnm p hp) waitpid random
    rw [if_neg hst] at htm
    rw [next, hp]
    exact htm

theorem Inv.not_sound (h : Inv idle m) (hidl : Function.Injective idle)
    (he : Enabled idle m e) (hcl : ¬ Clear m e) : ¬ Sound idle waitpid m e := by
  rintro ⟨m', hm', hor⟩
  have hkl : ∀ {c}, ¬ OthersOff m c → ∃ p t, m.proc (m.current c) = some p ∧ t ∈ m.threads p ∧
      t ≠ m.current c ∧ ((m.thread t).state = .ready ∨ (m.thread t).state = .waiting) := by
    intro c hof
    simp only [OthersOff, not_forall, exists_prop] at hof
    obtain ⟨p, hp, t, ht, hne, hst⟩ := hof
    exact ⟨p, t, hp, ht, hne, by tauto⟩
  cases e with
  | wait c w =>
    obtain ⟨q, hq, -⟩ := Option.bind_eq_some_iff.mp hm'
    exact hcl (beginWait_eq.mp hq).1
  | start t random => exact hcl (ready_eq.mp hm').1
  | kill c =>
    obtain ⟨p, t, hp, ht, hne, hst⟩ := hkl hcl
    rw [next, hp, bind_some, h.kill_eq] at hm'
    have hstc := h.killed_stuck ht hne hst
    exact (Option.some.inj hm' ▸ hstc).not_orderly hor
  | terminate c random =>
    obtain ⟨p, hp⟩ := Option.ne_none_iff_exists'.mp he
    by_cases hof : OthersOff m c
    · rw [next, hp, bind_some] at hm'
      by_cases hnm : m.numRunning p = 1
      · have htm := h.terminate hidl hp (hof p hp) hnm waitpid random
        split_ifs at htm with hst
        · simp [htm] at hm'
        · exact hcl ⟨hof, hst, fun p' hp' => by rwa [← Option.some.inj (hp.symm.trans hp')]⟩
      · rw [Machine.comSysProcTerminate, h.kill_eq, bind_some, Machine.comSysProcExit] at hm'
        change (((if m.numRunning p = 1 then _ else none : Option Machine).bind _).bind _) = _ at hm'
        rw [if_neg hnm] at hm'
        simp at hm'
    · obtain ⟨p', t, hp', ht, hne, hst⟩ := hkl hof
      rw [next, hp', bind_some] at hm'
      exact (h.terminate_stuck ht hne hst hm').not_orderly hor
  | yield | notify | notifyAll | notifyN | notifyThread | create => exact hcl trivial

variable (idle) in
structure Boot (m : Machine) : Prop where
  queue : ∀ c, m.queue c = []
  waitlist : ∀ w, m.waitlist w = []
  current : ∀ c, (m.thread (m.current c)).state = .running ∧ (m.thread (m.current c)).cpu = some c
  home : ∀ c c', m.current c = idle c' → c' = c
  waitingOn : ∀ t, (m.thread t).waitingOn = none
  idle_ready : ∀ c, (m.thread (idle c)).state ≠ .exited ∧ m.proc (idle c) = none
  other : ∀ t, ¬ IsIdle idle t → (∀ c, m.current c ≠ t) →
    (m.thread t).state = .new ∧ (m.thread t).cpu = none
  nodup : ∀ p, (m.threads p).Nodup
  mem_threads : ∀ t p, t ∈ m.threads p ↔ m.proc t = some p
  starting : ∀ t, m.starting t = false

theorem Boot.state (h : Boot idle m) (hno : ¬ IsIdle idle t) :
    (m.thread t).state = .running ∨ (m.thread t).state = .new := by
  by_cases hc : ∃ c, m.current c = t
  · obtain ⟨c, rfl⟩ := hc
    exact .inl (h.current c).1
  · exact .inr (h.other t hno (not_exists.mp hc)).1

theorem Boot.inv (h : Boot idle m) : Inv idle m := by
  refine ⟨⟨fun t => ⟨.free, ?_, h.waitingOn t, ?_, fun hno => ?_⟩, fun c => (h.current c).2,
    fun t c hno hcp => ?_, h.home⟩, fun c => .inl (h.current c).1, h.nodup, fun t p => ?_,
    fun c => (h.idle_ready c).2, fun t ht => absurd ht (by simp [h.starting])⟩
  · exact ⟨fun c => by simp [h.queue], fun w => by simp [h.waitlist], rfl⟩
  · rintro ⟨c, rfl⟩
    exact (h.idle_ready c).1
  · obtain ht | ht := h.state hno <;> simp [ht]
  · by_contra hne
    by_cases hc : ∃ c, m.current c = t
    · obtain ⟨c', rfl⟩ := hc
      rw [(h.current c').2] at hcp
      exact hne (Option.some.inj hcp ▸ rfl)
    · simp [(h.other t hno (not_exists.mp hc)).2] at hcp
  · rw [h.mem_threads, iff_self_and]
    intro hp
    have hno : ¬ IsIdle idle t := by
      rintro ⟨c, rfl⟩
      simp [(h.idle_ready c).2] at hp
    obtain ht | ht := h.state hno <;> simp [ht]

/-- Along every run whose events meet the condition the queues are in order, and an event goes
through and leaves them so exactly if it meets the condition. -/
theorem orderly_of_clear (hidle : Function.Injective idle) (m₀ : Machine) (h₀ : Boot idle m₀)
    (m : Machine) (hm : Runs.Reaches (next idle waitpid)
      (fun m e => Enabled idle m e ∧ Clear m e) m₀ m) :
    Orderly m ∧ ∀ e, Enabled idle m e → (Sound idle waitpid m e ↔ Clear m e) := by
  have hiv : Inv idle m := hm.invariant (Inv idle) h₀.inv fun m e m' h ⟨he, hcl⟩ hnx => by
    obtain ⟨m'', hm'', hiv⟩ := h.step hidle he hcl waitpid
    rwa [Option.some.inj (hnx.symm.trans hm'')]
  refine ⟨hiv.placed.orderly, fun e he => ⟨fun hsn => ?_, fun hcl => ?_⟩⟩
  · by_contra hcl
    exact hiv.not_sound hidle he hcl hsn
  · obtain ⟨m', hm', h'⟩ := hiv.step hidle he hcl waitpid
    exact ⟨m', hm', h'.placed.orderly⟩

end

def boot : Machine where
  thread t :=
    if t = 0 then ⟨.running, none, some 0, none⟩
    else if t = 1 then ⟨.ready, none, none, none⟩
    else if t % 2 = 1 then ⟨.running, none, some (t / 2), none⟩
    else ⟨.new, none, none, none⟩
  waitlist _ := []
  queue _ := []
  current c := if c = 0 then 0 else 2 * c + 1
  proc t := if t = 0 then some 0 else none
  threads p := if p = 0 then [0] else []
  numRunning p := if p = 0 then 1 else 0
  exited _ := false
  starting _ := false

theorem boot_current (c : ℕ) : (boot.thread (boot.current c)).state = .running ∧
    (boot.thread (boot.current c)).cpu = some c := by
  by_cases hc : c = 0
  · subst hc
    exact ⟨rfl, rfl⟩
  · have hod : (2 * c + 1) % 2 = 1 := by omega
    have hhl : (2 * c + 1) / 2 = c := by omega
    have hoe : 2 * c + 1 ≠ 1 := by omega
    simp only [boot, if_neg hc, if_neg hoe, if_pos hod, hhl, if_neg (Nat.succ_ne_zero (2 * c)),
      and_self]

theorem boot_boots : Boot (2 * · + 1) boot where
  queue _ := rfl
  waitlist _ := rfl
  current := boot_current
  home c c' h := by
    simp only [boot] at h
    split_ifs at h
    omega
  waitingOn t := by
    simp only [boot]
    split_ifs <;> rfl
  idle_ready c := by
    simp only [boot]
    split_ifs <;> simp_all
  other t hno hcu := by
    have hz : t ≠ 0 := fun h => hcu 0 h.symm
    have hev : t % 2 ≠ 1 := fun h => hno ⟨t / 2, by dsimp only; omega⟩
    have hoe : t ≠ 1 := by
      rintro rfl
      exact hev rfl
    simp [boot, hz, hev, hoe]
  nodup p := by
    simp only [boot]
    split_ifs <;> simp
  mem_threads t p := by
    simp only [boot]
    split_ifs <;> simp_all [eq_comm]
  starting _ := rfl

theorem orderly_second_thread : ∃ m, Runs.Reaches (next (2 * · + 1) id)
    (fun m e => Enabled (2 * · + 1) m e ∧ Clear m e) boot m ∧ m.queue 0 = [2] ∧ Orderly m ∧
      Sound (2 * · + 1) id m (.yield 0) := by
  have hidl : Function.Injective fun c : ℕ => 2 * c + 1 := fun a b h => by
    dsimp only at h
    omega
  have h₀ : Runs.Reaches (next (2 * · + 1) id)
    (fun m e => Enabled (2 * · + 1) m e ∧ Clear m e) boot boot := .start
  have h₁ := h₀.step (e := Event.create 2 0)
    ⟨⟨rfl, fun c => by dsimp only; omega, rfl, rfl⟩, trivial⟩ rfl
  have h₂ := h₁.step (e := Event.start 2 fun _ => 0) ⟨rfl, nofun⟩ rfl
  have hor := orderly_of_clear hidl boot boot_boots _ h₂
  exact ⟨_, h₂, rfl, hor.1, (hor.2 (.yield 0) trivial).mpr trivial⟩

/-- A process of two threads cannot exit while the second one is on a run queue: it is killed there,
and the assertion fails when the processor comes to it. -/
theorem not_terminated : ∃ m, Runs.Reaches (next (2 * · + 1) id) (Enabled (2 * · + 1)) boot m ∧
    m.queue 0 = [2] ∧ (m.thread 2).state = .ready ∧
      Enabled (2 * · + 1) m (.terminate 0 fun _ => 0) ∧
        ¬ Sound (2 * · + 1) id m (.terminate 0 fun _ => 0) := by
  have h₀ : Runs.Reaches (next (2 * · + 1) id) (Enabled (2 * · + 1)) boot boot := .start
  have h₁ := h₀.step (e := Event.create 2 0) ⟨rfl, fun c => by dsimp only; omega, rfl, rfl⟩ rfl
  have h₂ := h₁.step (e := Event.start 2 fun _ => 0) rfl rfl
  refine ⟨_, h₂, rfl, rfl, nofun, ?_⟩
  rintro ⟨m', hm', -⟩
  exact absurd (hm'.symm.trans rfl) (Option.some_ne_none m')

end SchedExit
