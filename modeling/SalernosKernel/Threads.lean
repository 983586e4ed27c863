import Mathlib.Data.List.Count

/-! # Threads and their queues

The states of a thread and the critical sections of `com/sys/thread.c` and `com/sys/sched.c` that
take it from one queue to another. Threads, wait lists and processors are numbers; no result is a
failed assertion. -/
namespace Threads

open Option

attribute [grind =] Function.update_apply

inductive ThreadState where
  | new
  | waiting
  | ready
  | running
  | exited
  deriving DecidableEq

structure Thread where
  state : ThreadState
  waitingOn : Option ℕ
  cpu : Option ℕ
  lastCpu : Option ℕ
  deriving DecidableEq

def Thread.Allows (th : Thread) : ThreadState → Prop
  | .new => False
  | .ready => th.state ≠ .exited ∧ th.waitingOn = none
  | .waiting => th.state ≠ .exited ∧ th.waitingOn ≠ none
  | .running => th.state ≠ .exited ∧ th.cpu ≠ none ∧ th.waitingOn = none
  | .exited => th.state ≠ .exited

instance (th : Thread) (state : ThreadState) : Decidable (th.Allows state) := by
  cases state <;> simp only [Thread.Allows] <;> infer_instance

def comSysThreadTransitionNolock (th : Thread) (state : ThreadState) : Option Thread :=
  if th.Allows state then some { th with state := state } else none

theorem transition_eq_some {th th' : Thread} {state : ThreadState} :
    comSysThreadTransitionNolock th state = some th' ↔
      th.Allows state ∧ th' = { th with state := state } := by
  unfold comSysThreadTransitionNolock
  split_ifs with h
  · simp [h, eq_comm]
  · simp [h]

structure Sched where
  thread : ℕ → Thread
  waitlist : ℕ → List ℕ
  queue : ℕ → List ℕ

namespace Sched

variable (s : Sched)

def setThread (t : ℕ) (th : Thread) : Sched := { s with thread := Function.update s.thread t th }

def setWaitlist (w : ℕ) (ts : List ℕ) : Sched :=
  { s with waitlist := Function.update s.waitlist w ts }

def setQueue (c : ℕ) (ts : List ℕ) : Sched := { s with queue := Function.update s.queue c ts }

def enqueue (c t : ℕ) : Sched := s.setQueue c (s.queue c ++ [t])

def transition (t : ℕ) (state : ThreadState) : Option Sched :=
  (comSysThreadTransitionNolock (s.thread t) state).map (s.setThread t)

def beginWait (t w : ℕ) : Option Sched :=
  (s.setThread t { s.thread t with waitingOn := some w }).transition t .waiting

def insertWait (t w : ℕ) : Sched := s.setWaitlist w (s.waitlist w ++ [t])

def beginReady (t : ℕ) : Option Sched :=
  (s.setThread t { s.thread t with waitingOn := none }).transition t .ready

def readyCpu (t random : ℕ) : ℕ := (s.thread t).lastCpu.getD random

def comSysThreadReadyNolock (t random : ℕ) : Option Sched :=
  (s.beginReady t).map fun s' => s'.enqueue (s.readyCpu t random) t

def leave (idle : ℕ → ℕ) (c curr next : ℕ) : Option Sched :=
  if curr = next then none
  else
    (if (s.thread curr).state = .running then
      (s.transition curr .ready).map fun s' => if curr = idle c then s' else s'.enqueue c curr
    else some s).map fun s' =>
      s'.setThread curr { s'.thread curr with cpu := none, lastCpu := some c }

/-- The run-queue section of `com_sys_sched_yield_nolock`, and the next thread, if there is one. -/
def yieldSection (idle : ℕ → ℕ) (c curr : ℕ) : Option (Sched × Option ℕ) :=
  match s.queue c with
  | [] =>
    if (s.thread curr).state = .running then some (s, none)
    else (s.leave idle c curr (idle c)).map fun s' => (s', some (idle c))
  | next :: rest =>
    if next = idle c then none
    else ((s.setQueue c rest).leave idle c curr next).map fun s' => (s', some next)

def switchTo (c next : ℕ) : Option Sched :=
  (s.setThread next { s.thread next with cpu := some c }).transition next .running

variable {s} {s' : Sched} {t w c : ℕ}

theorem transition_eq {state : ThreadState} : s.transition t state = some s' ↔
    (s.thread t).Allows state ∧ s' = s.setThread t { s.thread t with state := state } := by
  simp only [transition, map_eq_some_iff, transition_eq_some]
  constructor
  · rintro ⟨th, ⟨h, rfl⟩, rfl⟩
    exact ⟨h, rfl⟩
  · rintro ⟨h, rfl⟩
    exact ⟨_, ⟨h, rfl⟩, rfl⟩

@[simp] theorem setThread_self (s : Sched) (t : ℕ) (th : Thread) : (s.setThread t th).thread t = th :=
  Function.update_self _ _ _

theorem setThread_of_ne (s : Sched) {t u : ℕ} (h : u ≠ t) (th : Thread) :
    (s.setThread t th).thread u = s.thread u :=
  Function.update_of_ne h _ _

@[simp] theorem setThread_setThread (s : Sched) (t : ℕ) (th th' : Thread) :
    (s.setThread t th).setThread t th' = s.setThread t th' := by
  simp [setThread]

theorem beginWait_eq : s.beginWait t w = some s' ↔ (s.thread t).state ≠ .exited ∧
    s' = s.setThread t { s.thread t with state := .waiting, waitingOn := some w } := by
  rw [beginWait, transition_eq, setThread_self, setThread_setThread]
  simp [Thread.Allows]

theorem beginReady_eq : s.beginReady t = some s' ↔ (s.thread t).state ≠ .exited ∧
    s' = s.setThread t { s.thread t with state := .ready, waitingOn := none } := by
  rw [beginReady, transition_eq, setThread_self, setThread_setThread]
  simp [Thread.Allows]

theorem switchTo_eq : s.switchTo c t = some s' ↔
    ((s.thread t).state ≠ .exited ∧ (s.thread t).waitingOn = none) ∧
      s' = s.setThread t { s.thread t with state := .running, cpu := some c } := by
  rw [switchTo, transition_eq, setThread_self, setThread_setThread]
  simp [Thread.Allows]

variable {idle : ℕ → ℕ} {next : ℕ}

theorem leave_eq {curr : ℕ} : s.leave idle c curr next = some s' ↔
    curr ≠ next ∧ if (s.thread curr).state = .running then
      (s.thread curr).waitingOn = none ∧
        s' = (if curr = idle c then s else s.enqueue c curr).setThread curr
          { s.thread curr with state := .ready, cpu := none, lastCpu := some c }
    else s' = s.setThread curr { s.thread curr with cpu := none, lastCpu := some c } := by
  unfold leave
  by_cases hne : curr = next
  · simp [hne]
  · rw [if_neg hne]
    by_cases hst : (s.thread curr).state = .running
    · rw [if_pos hst, if_pos hst, map_map, map_eq_some_iff]
      simp only [transition_eq, Thread.Allows, hst, Function.comp_apply]
      constructor
      · rintro ⟨q, ⟨⟨-, hw⟩, rfl⟩, rfl⟩
        refine ⟨hne, hw, ?_⟩
        split_ifs <;> simp [setThread, enqueue, setQueue]
      · rintro ⟨-, hw, rfl⟩
        refine ⟨_, ⟨⟨by simp, hw⟩, rfl⟩, ?_⟩
        split_ifs <;> simp [setThread, enqueue, setQueue]
    · rw [if_neg hst, if_neg hst, map_some]
      simp [hne, eq_comm]

inductive Chosen (s : Sched) (idle : ℕ → ℕ) (c : ℕ) : ℕ → List ℕ → Prop where
  | head {next : ℕ} {rest : List ℕ} (h : s.queue c = next :: rest) (hne : next ≠ idle c) :
      Chosen s idle c next rest
  | idle (h : s.queue c = []) : Chosen s idle c (idle c) []

variable {rest : List ℕ}

theorem Chosen.count (h : Chosen s idle c next rest) (t : ℕ) :
    (s.queue c).count t = rest.count t + if next = t ∧ t ≠ idle c then 1 else 0 := by
  cases h with
  | head h hne => grind
  | idle h => grind

theorem setQueue_self (s : Sched) (c : ℕ) : s.setQueue c (s.queue c) = s := by
  simp [setQueue]

theorem leave_setQueue (h : (s.setQueue c rest).leave idle c t next = some s') : t ≠ next ∧
      ((s.thread t).state = .running ∧ (s.thread t).waitingOn = none ∧
          s' = (s.setQueue c (rest ++ if t = idle c then [] else [t])).setThread t
            { s.thread t with state := .ready, cpu := none, lastCpu := some c } ∨
        (s.thread t).state ≠ .running ∧ s' = (s.setQueue c rest).setThread t
          { s.thread t with cpu := none, lastCpu := some c }) := by
  obtain ⟨hne, h⟩ := leave_eq.mp h
  refine ⟨hne, ?_⟩
  change if (s.thread t).state = .running then _ else _ at h
  by_cases hrn : (s.thread t).state = .running
  · rw [if_pos hrn] at h
    refine .inl ⟨hrn, h.1, h.2.trans ?_⟩
    by_cases hid : t = idle c
    · rw [if_pos hid, if_pos hid, List.append_nil]
      rfl
    · rw [if_neg hid, if_neg hid]
      simp [setThread, enqueue, setQueue]
  · rw [if_neg hrn] at h
    exact .inr ⟨hrn, h⟩

theorem yieldSection_cases {r : Sched × Option ℕ} (h : s.yieldSection idle c t = some r) :
    (r = (s, none) ∧ s.queue c = [] ∧ (s.thread t).state = .running) ∨
      ∃ next rest, Chosen s idle c next rest ∧ r.2 = some next ∧ t ≠ next ∧
        ((s.thread t).state = .running ∧ (s.thread t).waitingOn = none ∧
            r.1 = (s.setQueue c (rest ++ if t = idle c then [] else [t])).setThread t
              { s.thread t with state := .ready, cpu := none, lastCpu := some c } ∨
          (s.thread t).state ≠ .running ∧ r.1 = (s.setQueue c rest).setThread t
            { s.thread t with cpu := none, lastCpu := some c }) := by
  unfold yieldSection at h
  split at h
  · next hnl =>
    split_ifs at h with hrn
    · exact .inl ⟨(some.inj h).symm, hnl, hrn⟩
    · obtain ⟨s', hlv, rfl⟩ := map_eq_some_iff.mp h
      rw [← setQueue_self s c, hnl] at hlv
      exact .inr ⟨idle c, [], .idle hnl, rfl, leave_setQueue hlv⟩
  · next n rest hcons =>
    split_ifs at h with hid
    obtain ⟨s', hlv, rfl⟩ := map_eq_some_iff.mp h
    exact .inr ⟨n, rest, .head hcons hid, rfl, leave_setQueue hlv⟩

theorem yieldSection_chosen (h : Chosen s idle c next rest) (hne : t ≠ next)
    (hsy : s.queue c = [] → (s.thread t).state ≠ .running)
    (hw : (s.thread t).state = .running → (s.thread t).waitingOn = none) :
    ∃ s', s.yieldSection idle c t = some (s', some next) := by
  have hlv : ∃ s', (s.setQueue c rest).leave idle c t next = some s' := by
    simp only [leave_eq]
    by_cases hrn : (s.thread t).state = .running
    · exact ⟨_, hne, (if_pos hrn).mpr ⟨hw hrn, rfl⟩⟩
    · exact ⟨_, hne, (if_neg hrn).mpr rfl⟩
  obtain ⟨s', hs'⟩ := hlv
  refine ⟨s', ?_⟩
  unfold yieldSection
  cases h with
  | head h hid =>
    rw [h]
    dsimp only
    rw [if_neg hid, hs', map_some]
  | idle h =>
    rw [show s.setQueue c [] = s from h ▸ setQueue_self s c] at hs'
    rw [h]
    dsimp only
    rw [if_neg (hsy h), hs', map_some]

end Sched

end Threads
