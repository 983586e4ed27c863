import SalernosKernel.CalloutQueue

/-! # Interval timers

`com/sys/syscall/setitimer.c`, with the conversion of the timeout of `poll`. An argument of
`itimer_callout` stands for its callout too. Its memory is zeroed when it is allocated, and an
argument allocated later is another one. -/
namespace IntervalTimer

open CalloutQueue
open Function

def KNANOS_PER_SEC : BitVec 64 := 1000000000

structure Timeval where
  sec : BitVec 64
  usec : BitVec 64
  deriving DecidableEq

structure Timespec where
  sec : BitVec 64
  nsec : BitVec 64
  deriving DecidableEq

def timevalToNs (t : Timeval) : BitVec 64 := t.sec * KNANOS_PER_SEC + t.usec * 1000

def timevalIsCanonical (t : Timeval) : Prop :=
  0 ≤ t.sec.toInt ∧ 0 ≤ t.usec.toInt ∧ t.usec.toNat < 1000000
  deriving Decidable

inductive PollDelay where
  | EINVAL
  | noWait
  | wait (delayNs : BitVec 64)
  deriving DecidableEq

def pollDelay (t : Timespec) : PollDelay :=
  if t.sec = 0 ∧ t.nsec = 0 then .noWait
  else if t.sec.toInt < 0 ∨ t.nsec.toInt < 0 ∨ KNANOS_PER_SEC ≤ t.nsec then .EINVAL
  else .wait (t.sec * KNANOS_PER_SEC + t.nsec)

/-- What is left of the delay before a wait, with `elapsed` since the call or the wait before;
nothing if the wait is skipped. -/
def pollWait (delay elapsed : BitVec 64) : Option (BitVec 64) :=
  if delay = 0 then some 0
  else if elapsed < delay then some (delay - elapsed) else none

def pollWaits (delay : BitVec 64) (elapsed : List (BitVec 64)) : Option (BitVec 64) :=
  elapsed.foldlM pollWait delay

def Timeval.ns (t : Timeval) : ℕ := t.sec.toNat * 1000000000 + t.usec.toNat * 1000

def Timespec.ns (t : Timespec) : ℕ := t.sec.toNat * 1000000000 + t.nsec.toNat

section Conversion

variable {C : Type*} [DecidableEq C]

/-- `com_sys_sched_wait_nodrop_timeout`: a timeout of 0 is none. -/
def waitTimeout (q : Queue C) (c : C) (timeout : BitVec 64) : Queue C :=
  if timeout = 0 then q else q.comSysCalloutSetAndEnqueue c timeout.toNat

/-- The delay and the expiry are those of `ns` nanoseconds from `start` on, and nothing is due
before. -/
def Exact (start : ℕ) (q : Queue C) (c : C) (delay : BitVec 64) (ns : ℕ) : Prop :=
  delay.toNat = ns ∧ q.time c = start + ns ∧ ∀ now, q.time c ≤ now → start + ns ≤ now

theorem toNat_eq_zero {x : BitVec 64} : x.toNat = 0 ↔ x = 0 := (BitVec.toNat_eq (y := 0)).symm

theorem toNat_seconds (sec rest : BitVec 64) :
    (sec * KNANOS_PER_SEC + rest).toNat = (sec.toNat * 1000000000 + rest.toNat) % 2 ^ 64 := by
  rw [BitVec.toNat_add, BitVec.toNat_mul, Nat.mod_add_mod]
  rfl

theorem time_calloutAdd (q : Queue C) (c : C) (delay : ℕ) :
    (q.calloutAdd c delay).time c = (q.ns + delay) % 2 ^ 64 :=
  update_self ..

omit [DecidableEq C] in
theorem exact_iff {start : ℕ} {q : Queue C} {c : C} {delay : BitVec 64} {ns : ℕ}
    (hdelay : delay.toNat = ns) : Exact start q c delay ns ↔ q.time c = start + ns :=
  ⟨fun h => h.2.1, fun h => ⟨hdelay, h, fun _ hnow => h ▸ hnow⟩⟩

theorem exact_calloutAdd_iff {q : Queue C} {c : C} {delay : BitVec 64} {ns : ℕ}
    (hdelay : delay.toNat = ns % 2 ^ 64) :
    Exact q.ns (q.calloutAdd c delay.toNat) c delay ns ↔ q.ns + ns < 2 ^ 64 := by
  constructor
  · rintro ⟨-, htime, -⟩
    rw [← htime, time_calloutAdd]
    exact Nat.mod_lt _ (Nat.two_pow_pos 64)
  · intro h
    have hns : delay.toNat = ns := hdelay.trans (Nat.mod_eq_of_lt (by omega))
    rw [exact_iff hns, time_calloutAdd, hns, Nat.mod_eq_of_lt h]

theorem pollDelay_wait {t : Timespec} {delay : BitVec 64} (h : pollDelay t = .wait delay) :
    t.ns ≠ 0 ∧ delay.toNat = t.ns % 2 ^ 64 := by
  unfold pollDelay at h
  split_ifs at h with hzero
  obtain rfl := PollDelay.wait.inj h
  refine ⟨fun hns => hzero ⟨toNat_eq_zero.mp ?_, toNat_eq_zero.mp ?_⟩, toNat_seconds _ _⟩
  all_goals
    rw [Timespec.ns] at hns
    omega

/-- The rounds of `poll` take off what has elapsed, until a wait is skipped. -/
theorem pollWaits_spent {delay : BitVec 64} (h : delay ≠ 0) (elapsed : List (BitVec 64)) :
    match pollWaits delay elapsed with
    | some rest => rest ≠ 0 ∧ rest.toNat + (elapsed.map BitVec.toNat).sum = delay.toNat
    | none => delay.toNat ≤ (elapsed.map BitVec.toNat).sum := by
  induction elapsed generalizing delay with
  | nil => exact ⟨h, rfl⟩
  | cons e elapsed ih =>
    rw [pollWaits, List.foldlM_cons, pollWait, if_neg h, List.map_cons, List.sum_cons]
    by_cases hlt : e < delay
    · have hsub : (delay - e).toNat = delay.toNat - e.toNat :=
        BitVec.toNat_sub_of_le (BitVec.le_of_lt hlt)
      have he : e.toNat < delay.toNat := hlt
      have hne : delay - e ≠ 0 := fun hz => by
        have := toNat_eq_zero.mpr hz
        omega
      have hrest := ih hne
      rw [pollWaits] at hrest
      rw [if_pos hlt]
      dsimp only [bind, Option.bind]
      split at hrest <;> simp_all <;> omega
    · have he : delay.toNat ≤ e.toNat := BitVec.not_lt.mp hlt
      rw [if_neg hlt]
      exact he.trans (Nat.le_add_right _ _)

/-- For a wait of `poll`, `start` is the time of the queue at the call and `elapsed` are the times
that the rounds so far took off. -/
theorem timer_conversions_exact_iff (q : Queue C) (c : C) :
    (∀ t, timevalIsCanonical t →
      (Exact q.ns (q.calloutAdd c (timevalToNs t).toNat) c (timevalToNs t) t.ns ↔
        q.ns + t.ns < 2 ^ 64)) ∧
      ∀ t delay, pollDelay t = .wait delay → ∀ start elapsed,
        match pollWaits delay elapsed with
        | some rest => (Exact start (waitTimeout q c rest) c delay t.ns ↔
            q.ns % 2 ^ 64 = start + (elapsed.map BitVec.toNat).sum ∧ start + t.ns < 2 ^ 64)
        | none => t.ns < 2 ^ 64 → start + (elapsed.map BitVec.toNat).sum ≤ q.ns →
            start + t.ns ≤ q.ns := by
  refine ⟨fun t _ => exact_calloutAdd_iff ?_, fun t delay h start elapsed => ?_⟩
  · rw [timevalToNs, toNat_seconds, BitVec.toNat_mul, Nat.add_mod_mod]
    rfl
  · obtain ⟨hpos, hdelay⟩ := pollDelay_wait h
    have hne (hns : t.ns < 2 ^ 64) : delay ≠ 0 := fun hz => by
      rw [toNat_eq_zero.mpr hz, Nat.mod_eq_of_lt hns] at hdelay
      exact hpos hdelay.symm
    split
    · next rest hrest =>
      by_cases hns : t.ns < 2 ^ 64
      · rw [Nat.mod_eq_of_lt hns] at hdelay
        have hspent := pollWaits_spent (hne hns) elapsed
        rw [hrest] at hspent
        obtain ⟨hrest0, hsum⟩ := hspent
        rw [exact_iff hdelay, waitTimeout, if_neg hrest0]
        change (q.calloutAdd c rest.toNat).time c = _ ↔ _
        rw [time_calloutAdd]
        omega
      · refine iff_of_false (fun hexact => hns (hexact.1 ▸ delay.isLt)) (by omega)
    · next hrest =>
      intro hns hstart
      have hspent := pollWaits_spent (hne hns) elapsed
      rw [hrest] at hspent
      rw [Nat.mod_eq_of_lt hns] at hdelay
      omega

/-- 18446744074 seconds are over after less than one. With 300 ns between the call of `poll` and its
wait, in one tick of the queue, 2000100 ns are over 300 ns too early. -/
theorem timer_conversion_wraps :
    timevalIsCanonical ⟨18446744074, 0⟩ ∧ (timevalToNs ⟨18446744074, 0⟩).toNat = 290448384 ∧
      pollDelay ⟨18446744074, 0⟩ = .wait 290448384 ∧
      ((emptyQueue 0 : Queue ℕ).calloutAdd 0 (timevalToNs ⟨18446744074, 0⟩).toNat).time 0 =
        290448384 ∧
      pollDelay ⟨0, 2000100⟩ = .wait 2000100 ∧ pollWaits 2000100 [300] = some 1999800 ∧
      (waitTimeout (emptyQueue 0 : Queue ℕ) 0 1999800).time 0 = 1999800 :=
  ⟨by decide, by decide, by decide, by decide, by decide, by decide, by decide⟩

end Conversion

/-- Where an argument is: its callout has to be added, is queued, has left the queue with its
handler before the lock, or has to be rescheduled. -/
inductive Place where
  | unused
  | allocated
  | adding
  | queued
  | fired
  | rescheduling
  /-- Its handler has found it cancelled and has to free it. -/
  | freeing
  | ended
  deriving DecidableEq

inductive Call where
  | outside
  /-- Before the section of the lock, with the argument for a value and whether there is an
  interval; nothing for a `new_val` of `NULL`. -/
  | ready (new : Option (Option ℕ × Bool))
  | adding (a : ℕ)
  deriving DecidableEq

/-- The `real_timer` of a thread, and the arguments numbered as they are allocated. -/
structure State where
  place : ℕ → Place
  cancelled : ℕ → Bool
  freed : ℕ → ℕ
  allocated : ℕ
  itimerArg : Option ℕ
  /-- `it_interval` is not zero. -/
  interval : Bool
  call : Call

inductive Event where
  /-- Whether the value and the interval are not zero, unless `new_val` is `NULL`. -/
  | setitimer (new : Option (Bool × Bool))
  | commit
  | add
  | fire (a : ℕ)
  | handle (a : ℕ)
  | reschedule (a : ℕ)
  | free (a : ℕ)
  deriving DecidableEq

def initial : State := ⟨fun _ => .unused, fun _ => false, fun _ => 0, 0, none, false, .outside⟩

def State.move (s : State) (a : ℕ) (p : Place) : State := { s with place := update s.place a p }

def State.cancel (s : State) : State :=
  { s with cancelled := fun a => s.cancelled a || s.itimerArg = some a }

def next (s : State) : Event → Option State
  | .setitimer new =>
    if s.call = .outside then
      some <| match new with
        | none => { s with call := .ready none }
        | some (false, interval) => { s with call := .ready (some (none, interval)) }
        | some (true, interval) =>
          { s.move s.allocated .allocated with
            allocated := s.allocated + 1
            call := .ready (some (some s.allocated, interval)) }
    else none
  | .commit =>
    match s.call with
    | .ready none => some { s with call := .outside }
    | .ready (some (none, _)) =>
      some { s.cancel with itimerArg := none, interval := false, call := .outside }
    | .ready (some (some a, interval)) =>
      some { s.cancel.move a .adding with
        itimerArg := some a, interval := interval, call := .adding a }
    | _ => none
  | .add =>
    match s.call with
    | .adding a => some { s.move a .queued with call := .outside }
    | _ => none
  | .fire a => if s.place a = .queued then some (s.move a .fired) else none
  | .handle a =>
    if s.place a = .fired then
      some <|
        if s.cancelled a then s.move a .freeing
        else if s.interval then s.move a .rescheduling
        else { s.move a .ended with itimerArg := none }
    else none
  | .reschedule a => if s.place a = .rescheduling then some (s.move a .queued) else none
  | .free a =>
    if s.place a = .freeing then
      some { s.move a .ended with freed := update s.freed a (s.freed a + 1) }
    else none

/-- The callout is queued, or a step in progress still has to queue it. -/
def Place.active : Place → Bool
  | .adding | .queued | .fired | .rescheduling => true
  | _ => false

def Live (s : State) (a : ℕ) : Prop := s.cancelled a = false ∧ (s.place a).active = true

/-- The arguments that a step reads or writes. -/
def Accesses (s : State) : Event → ℕ → Prop
  | .commit, a => s.itimerArg = some a ∨ ∃ interval, s.call = .ready (some (some a, interval))
  | .fire b, a | .handle b, a | .free b, a => a = b
  | _, _ => False

structure Invariant (s : State) : Prop where
  live : ∀ a, Live s a ↔ s.itimerArg = some a
  fresh : ∀ a, s.allocated ≤ a → s.place a = .unused
  clear : ∀ a, s.place a = .unused ∨ s.place a = .allocated → s.cancelled a = false
  ready : ∀ a interval, s.call = .ready (some (some a, interval)) → s.place a = .allocated
  adding : ∀ a, s.call = .adding a → s.place a = .adding
  kept : ∀ a, s.place a ≠ .ended → s.freed a = 0
  once : ∀ a, s.freed a ≤ 1

variable {s s' : State}

theorem invariant_initial : Invariant initial where
  live a := by simp [Live, initial, Place.active]
  fresh _ _ := rfl
  clear _ _ := rfl
  ready a interval h := by cases h
  adding a h := by cases h
  kept _ _ := rfl
  once _ := Nat.zero_le 1

theorem Invariant.step (h : Invariant s) (e : Event) (hn : next s e = some s') : Invariant s' := by
  obtain ⟨hlv, hfr, hcr, hrd, had, hkp, hon⟩ := h
  simp only [Live] at hlv
  cases e with
  | setitimer new =>
    simp only [next] at hn
    split_ifs at hn with hcl
    cases hn
    split
    · constructor <;> grind [Live]
    · constructor <;> grind [Live]
    · have hun := hfr s.allocated le_rfl
      constructor <;> dsimp only [Live, State.move] <;>
        grind [Place.active, update_apply]
  | commit =>
    simp only [next] at hn
    split at hn
    · cases hn
      constructor <;> grind [Live]
    · cases hn
      constructor <;> dsimp only [Live, State.cancel] <;> grind [Place.active]
    · cases hn
      constructor <;> dsimp only [Live, State.move, State.cancel] <;>
        grind [Place.active, update_apply]
    · cases hn
  | add =>
    simp only [next] at hn
    split at hn
    · cases hn
      constructor <;> dsimp only [Live, State.move] <;>
        grind [Place.active, update_apply]
    · cases hn
  | fire a | reschedule a | free a =>
    simp only [next] at hn
    split_ifs at hn with hpl
    cases hn
    constructor <;> dsimp only [Live, State.move] <;> grind [Place.active, update_apply]
  | handle a =>
    simp only [next] at hn
    split_ifs at hn with hpl hcancelled hinterval <;> obtain rfl := Option.some.inj hn <;>
      constructor <;> dsimp only [Live, State.move] <;> grind [Place.active, update_apply]

/-- One argument is live at most, and none is freed twice or used after that. -/
theorem interval_timer_unique (s : State) (h : Runs.Reaches next (fun _ _ => True) initial s) :
    (∀ a a', Live s a → Live s a' → a = a') ∧ (s.itimerArg = none → ∀ a, ¬ Live s a) ∧
      (∀ a, s.freed a ≤ 1) ∧
      ∀ e a, (next s e).isSome → Accesses s e a → s.freed a = 0 := by
  have hiv : Invariant s :=
    h.invariant Invariant invariant_initial fun s e s' hs _ hn => hs.step e hn
  refine ⟨fun a a' ha ha' => ?_, fun hno a ha => ?_, hiv.once, fun e a hsm hacc => ?_⟩
  · exact Option.some.inj (((hiv.live a).mp ha).symm.trans ((hiv.live a').mp ha'))
  · rw [(hiv.live a).mp ha] at hno
    cases hno
  · refine hiv.kept a fun hen => ?_
    cases e with
    | commit =>
      rcases hacc with har | ⟨interval, hcl⟩
      · have hac := ((hiv.live a).mpr har).2
        rw [hen] at hac
        cases hac
      · rw [hiv.ready a interval hcl] at hen
        cases hen
    | fire b | handle b | free b =>
      obtain rfl : a = b := hacc
      simp [next, hen] at hsm
    | setitimer new | add | reschedule b => exact hacc

def another : List Event :=
  [.setitimer (some (true, false)), .commit, .add, .setitimer (some (true, true)), .commit, .fire 0,
    .handle 0, .add, .free 0, .fire 1, .handle 1]

theorem interval_timer_unique_reset :
    ∃ s : State, (∀ a, s.freed a ≤ 1) ∧ s.freed 0 = 1 ∧ s.itimerArg = some 1 :=
  ⟨_, (interval_timer_unique _ (Runs.run_reaches (show Runs.run next (fun _ _ => True) initial
    another = some _ from rfl))).2.2.1, rfl, rfl⟩

end IntervalTimer
