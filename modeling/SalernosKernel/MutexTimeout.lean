import SalernosKernel.Runs
import SalernosKernel.WaitQueue

/-! # The mutex with timeouts

`com/lib/mutex.c` with `com_sys_sched_wait_spinlock_timeout`, `com_sys_sched_notify` and
`sched_handle_timeout` of `com/sys/sched.c`. A thread that waits, and one that releases, hold the
spinlock of the mutex over two steps. -/
namespace MutexTimeout

open WaitQueue Option
open Function

inductive Place where
  | outside
  /-- In `try_acquire_internal` of `kmutex_acquire_timeout`. -/
  | trying (retries : ℕ) (timed : Bool)
  | entering (timed : Bool)
  | inserting (timed : Bool)
  | waiting (timed : Bool)
  /-- Taken from the list by `kmutex_release` and not yet made ready. -/
  | notified (timed : Bool)
  | woken (timed : Bool)
  | cancelled (timed : Bool)
  | back (timed timedOut : Bool)
  deriving DecidableEq

structure Member where
  place : Place
  timedWaitExpired : Bool
  holds : Bool
  deriving DecidableEq

inductive Section (T : Type*) where
  | free
  | inserting (t : T)
  | notifying (u : T)
  deriving DecidableEq

structure State (T : Type*) where
  locked : Bool
  waiters : List T
  lock : Section T
  member : T → Member
  /-- Whose timeouts are in the callout queue. -/
  queued : T → Bool
  /-- Taken from the callout queue, with the handler still to run. -/
  firing : Option T

inductive Event (T : Type*) where
  | tryAcquire (t : T)
  | acquire (t : T) (timed : Bool)
  | attempt (t : T) (sameCpu : Bool)
  | enter (t : T)
  | insert (t : T)
  | cancel (t : T)
  | check (t : T)
  | relock (t : T)
  | release (t : T)
  | ready
  | callout (t : T)
  | handleTimeout
  deriving DecidableEq

namespace Place

def Waiting : Place → Prop
  | .waiting _ => True
  | _ => False

instance : DecidablePred Waiting := fun place => by
  cases place <;> simp only [Waiting] <;> infer_instance

def notify : Place → Place
  | .waiting timed => .notified timed
  | place => place

def ready : Place → Place
  | .notified timed => .woken timed
  | place => place

def waitingOn : Place → Bool
  | .waiting _ => true
  | .notified _ => true
  | _ => false

def wake : Place → Place
  | .waiting timed => .woken timed
  | .notified timed => .woken timed
  | place => place

def attemptFails (left : ℕ) (timed sameCpu : Bool) : Place :=
  if sameCpu = true ∨ left = 0 then .entering timed else .trying left timed

end Place

section Model

variable {T : Type*} [DecidableEq T] (retries : ℕ)

def initial : State T :=
  ⟨false, [], .free, fun _ => ⟨.outside, false, false⟩, fun _ => false, none⟩

def State.move (s : State T) (t : T) (place : Place) : State T :=
  { s with member := update s.member t { s.member t with place := place } }

def State.take (s : State T) (t : T) : State T :=
  { s with
    locked := true
    member := update s.member t { s.member t with place := .outside, holds := true } }

def State.test (s : State T) (t : T) (timed : Bool) : State T :=
  if s.locked then
    { s with
      lock := .inserting t
      member := update s.member t
        { s.member t with place := .inserting timed, timedWaitExpired := false }
      queued := update s.queued t (timed || s.queued t) }
  else s.take t

def State.notify (s : State T) : State T :=
  match s.waiters with
  | [] => s
  | u :: rest => { s with waiters := rest, lock := .notifying u }.move u (s.member u).place.notify

def State.schedHandleTimeout (s : State T) (t : T) : State T :=
  let m := { s.member t with timedWaitExpired := true }
  if m.place.waitingOn then
    { s with
      waiters := s.waiters.erase t
      member := update s.member t { m with place := m.place.wake } }
  else { s with member := update s.member t m }

def next (s : State T) : Event T → Option (State T)
  | .tryAcquire t =>
    if s.lock = .free ∧ (s.member t).place = .outside then
      some (if s.locked then s else s.take t)
    else none
  | .acquire t timed =>
    if (s.member t).place = .outside then
      some (s.move t (if retries = 0 then .entering timed else .trying retries timed))
    else none
  | .attempt t sameCpu =>
    match s.lock, (s.member t).place with
    | .free, .trying left timed =>
      some (if s.locked then s.move t (.attemptFails (left - 1) timed sameCpu) else s.take t)
    | _, _ => none
  | .enter t =>
    match s.lock, (s.member t).place with
    | .free, .entering timed => some (s.test t timed)
    | _, _ => none
  | .insert t =>
    match s.lock, (s.member t).place with
    | .inserting u, .inserting timed =>
      if u = t then
        some ({ s with lock := .free, waiters := s.waiters ++ [t] }.move t (.waiting timed))
      else none
    | _, _ => none
  | .cancel t =>
    match (s.member t).place with
    | .woken timed =>
      some ({ s with queued := update s.queued t false }.move t (.cancelled timed))
    | _ => none
  | .check t =>
    match (s.member t).place with
    | .cancelled timed =>
      some (s.move t (.back timed (timed && (s.member t).timedWaitExpired)))
    | _ => none
  | .relock t =>
    match s.lock, (s.member t).place with
    | .free, .back timed timedOut =>
      some (if timedOut then s.move t .outside else s.test t timed)
    | _, _ => none
  | .release t =>
    if s.lock = .free ∧ (s.member t).place = .outside ∧ (s.member t).holds = true ∧
        s.locked = true then
      some { s with
        locked := false
        member := update s.member t { s.member t with holds := false } }.notify
    else none
  | .ready =>
    match s.lock with
    | .notifying u => some ({ s with lock := .free }.move u (s.member u).place.ready)
    | _ => none
  | .callout t =>
    if s.queued t = true ∧ s.firing = none then
      some { s with queued := update s.queued t false, firing := some t }
    else none
  | .handleTimeout =>
    match s.firing with
    | some t => some ({ s with firing := none }.schedHandleTimeout t)
    | none => none

def Place.Active : Place → Prop
  | .outside => False
  | .inserting _ => False
  | .waiting _ => False
  | _ => True

def Stuck (s : State T) : Prop :=
  s.locked = false ∧ s.waiters ≠ [] ∧ ∀ t, ¬ (s.member t).place.Active

def Place.Unread : Place → Prop
  | .notified timed => timed = true
  | .woken timed => timed = true
  | .cancelled timed => timed = true
  | _ => False

/-- `kmutex_release` wakes no thread whose timeout has run, and no timeout runs for a thread that was
woken before. -/
def Orderly (s : State T) : Event T → Prop
  | .release _ => ∀ u ∈ s.waiters.head?, (s.member u).place = .waiting true →
      (s.member u).timedWaitExpired = false
  | .handleTimeout => ∀ t ∈ s.firing, (s.member t).place.Unread →
      (s.member t).timedWaitExpired = true
  | _ => True

instance : DecidablePred Place.Active := fun place => by
  cases place <;> simp only [Place.Active] <;> infer_instance

instance : DecidablePred Place.Unread := fun place => by
  cases place <;> simp only [Place.Unread] <;> infer_instance

instance (s : State T) (e : Event T) : Decidable (Orderly s e) := by
  cases e <;> simp only [Orderly] <;> infer_instance

instance [Fintype T] (s : State T) : Decidable (Stuck s) :=
  inferInstanceAs (Decidable (s.locked = false ∧ s.waiters ≠ [] ∧ ∀ t, ¬ (s.member t).place.Active))

end Model

def Member.Willing (m : Member) : Prop :=
  match m.place with
  | .trying _ _ => True
  | .entering _ => True
  | .notified timed => timed = true → m.timedWaitExpired = false
  | .woken timed => timed = true → m.timedWaitExpired = false
  | .cancelled timed => timed = true → m.timedWaitExpired = false
  | .back _ timedOut => timedOut = false
  | _ => False

theorem Member.Willing.active {m : Member} (h : m.Willing) : m.place.Active := by
  rw [Member.Willing] at h
  cases hp : m.place <;> simp_all [Place.Active]

theorem Member.Willing.ready {m : Member} (h : m.Willing) :
    Member.Willing { m with place := m.place.ready } := by
  obtain ⟨place, expired, holds⟩ := m
  cases place <;> exact h

theorem Member.Willing.expire {m : Member} (h : m.Willing)
    (hread : m.place.Unread → m.timedWaitExpired = true) :
    Member.Willing { m with timedWaitExpired := true } ∧
      Member.Willing { m with timedWaitExpired := true, place := m.place.wake } := by
  obtain ⟨place, expired, holds⟩ := m
  cases place <;> simp_all [Member.Willing, Place.wake, Place.Unread]

section Invariants

variable {T : Type*} [DecidableEq T] [Fintype T]

structure Invariant (s : State T) : Prop where
  holders : s.locked.toNat = tally (fun m => m.holds.toNat) s.member
  listed : Listed s.waiters s.member (·.place.Waiting)
  inserting : ∀ t, s.lock = .inserting t → s.locked = true

omit [DecidableEq T] in
theorem invariant_initial : Invariant (initial : State T) where
  holders := by simp [initial, tally]
  listed := listed_nil fun _ => not_false
  inserting := nofun

def Tended (s : State T) : Prop :=
  s.locked = false → s.waiters ≠ [] → ∃ t, (s.member t).Willing

variable {s s' : State T} {t : T} {x : Member} {retries : ℕ}

theorem Invariant.set (h : Invariant s) (hm : s'.member = update s.member t x)
    (hhl : s'.locked.toNat + (s.member t).holds.toNat = s.locked.toNat + x.holds.toNat)
    (hlt : Listed s'.waiters (update s.member t x) (·.place.Waiting))
    (hin : ∀ u, s'.lock = .inserting u → s'.locked = true) : Invariant s' := by
  have hup := tally_update (fun m : Member => m.holds.toNat) s.member t x
  have hhld := h.holders
  refine ⟨?_, hm ▸ hlt, hin⟩
  rw [hm]
  omega

omit [Fintype T] in
theorem Tended.set (h : Tended s) (hm : s'.member = update s.member t x)
    (hlc : s'.locked = s.locked) (hwr : s'.waiters ≠ [] → s.waiters ≠ [])
    (hx : (s.member t).Willing → x.Willing) : Tended s' := by
  intro hfr hls
  obtain ⟨u, hu⟩ := h (hlc ▸ hfr) (hwr hls)
  refine ⟨u, ?_⟩
  rw [hm]
  by_cases hut : u = t
  · rw [hut, update_self]
    exact hx (hut ▸ hu)
  · rwa [update_of_ne hut]

theorem Invariant.move (h : Invariant s) {place : Place} (ht : ¬ (s.member t).place.Waiting)
    (hpl : ¬ place.Waiting) : Invariant (s.move t place) :=
  h.set rfl rfl (h.listed.update (iff_of_false hpl ht)) h.inserting

theorem Invariant.take (h : Invariant s) (hfr : s.locked = false)
    (ht : ¬ (s.member t).place.Waiting) : Invariant (s.take t) := by
  have hno : (s.member t).holds = false := by
    have hle := le_tally (fun m : Member => m.holds.toNat) s.member t
    rw [← h.holders, hfr] at hle
    exact Bool.toNat_eq_zero.mp (Nat.le_zero.mp hle)
  exact h.set rfl (by rw [hfr, hno]; rfl) (h.listed.update (iff_of_false not_false ht))
    fun _ _ => rfl

theorem Invariant.test (h : Invariant s) {timed : Bool} (ht : ¬ (s.member t).place.Waiting) :
    Invariant (s.test t timed) ∧ (s.test t timed).locked = true := by
  rw [State.test]
  split_ifs with hlc
  · exact ⟨h.set rfl rfl (h.listed.update (iff_of_false not_false ht)) fun _ _ => hlc, hlc⟩
  · exact ⟨h.take (Bool.eq_false_of_not_eq_true hlc) ht, rfl⟩

theorem Invariant.insert (h : Invariant s) {timed : Bool}
    (ht : (s.member t).place = .inserting timed) : Invariant
      ({ s with lock := .free, waiters := s.waiters ++ [t] }.move t (.waiting timed)) := by
  refine h.set rfl rfl (h.listed.enqueue ?_ trivial) nofun
  rw [ht]
  exact not_false

theorem place_notify_not_waiting (place : Place) : ¬ place.notify.Waiting := by
  cases place <;> exact not_false

theorem place_wake_not_waiting (place : Place) : ¬ place.wake.Waiting := by
  cases place <;> exact not_false

theorem Invariant.notify (h : Invariant s) : Invariant s.notify := by
  rw [State.notify]
  split
  · exact h
  · rename_i u rest hq
    have hlt := h.listed
    rw [hq] at hlt
    exact h.set rfl rfl (hlt.dequeue (place_notify_not_waiting _)) nofun

theorem Invariant.release (h : Invariant s) (ht : (s.member t).holds = true) (hlk : s.lock = .free)
    (hlc : s.locked = true) : Invariant { s with
      locked := false
      member := update s.member t { s.member t with holds := false } }.notify := by
  refine Invariant.notify (h.set rfl (by rw [hlc, ht]; rfl) (h.listed.update Iff.rfl) ?_)
  exact fun u hu => nomatch hlk.symm.trans hu

theorem Invariant.ready (h : Invariant s) (u : T) :
    Invariant ({ s with lock := .free }.move u (s.member u).place.ready) := by
  refine h.set rfl rfl (h.listed.update ?_) nofun
  cases hp : (s.member u).place <;> simp [Place.ready, Place.Waiting]

theorem Invariant.handleTimeout (h : Invariant s) : Invariant (s.schedHandleTimeout t) := by
  rw [State.schedHandleTimeout]
  split_ifs with hon
  · exact h.set rfl rfl (h.listed.erase (place_wake_not_waiting _)) h.inserting
  · exact h.set rfl rfl (h.listed.update Iff.rfl) h.inserting

omit [DecidableEq T] [Fintype T] in
theorem tended_of_locked (h : s.locked = true) : Tended s :=
  fun hfr => absurd (hfr.symm.trans h) Bool.false_ne_true

omit [Fintype T] in
theorem Tended.handleTimeout (h : Tended s) (hread : (s.member t).place.Unread →
    (s.member t).timedWaitExpired = true) : Tended (s.schedHandleTimeout t) := by
  rw [State.schedHandleTimeout]
  split_ifs with hon
  · exact h.set rfl rfl (fun hls hnil => hls (by rw [hnil]; rfl))
      fun hw => (hw.expire hread).2
  · exact h.set rfl rfl id fun hw => (hw.expire hread).1

omit [Fintype T] in
theorem tended_notify (hlt : Listed s.waiters s.member (·.place.Waiting))
    (hhd : ∀ u ∈ s.waiters.head?, (s.member u).place = .waiting true →
      (s.member u).timedWaitExpired = false) : Tended s.notify := by
  rw [State.notify]
  split
  · rename_i hq
    exact fun _ hls => absurd hq hls
  · rename_i u rest hq
    refine fun _ _ => ⟨u, ?_⟩
    have hu : (s.member u).place.Waiting := (hlt.mem_iff u).mp (hq ▸ List.mem_cons_self)
    have hep := hhd u (by rw [hq]; rfl)
    rw [State.move]
    dsimp only
    rw [update_self, Member.Willing]
    cases hp : (s.member u).place with
    | waiting timed =>
      rw [hp] at hep
      rintro rfl
      exact hep rfl
    | _ => rw [hp] at hu; exact absurd hu not_false

omit [Fintype T] in
theorem Tended.move (h : Tended s) {place : Place}
    (hpl : (s.member t).Willing → Member.Willing { s.member t with place := place }) :
    Tended (s.move t place) :=
  h.set rfl rfl id hpl

theorem Invariant.step (h : Invariant s) {e : Event T} (hn : next retries s e = some s') :
    Invariant s' ∧ (Orderly s e → Tended s → Tended s') := by
  cases e with
  | tryAcquire t =>
    obtain ⟨⟨-, ht⟩, hs'⟩ := ite_none_right_eq_some.mp hn
    cases hs'
    split_ifs with hlc
    · exact ⟨h, fun _ => id⟩
    · exact ⟨h.take (Bool.eq_false_of_not_eq_true hlc) (ht ▸ not_false),
        fun _ _ => tended_of_locked rfl⟩
  | acquire t timed =>
    obtain ⟨ht, hs'⟩ := ite_none_right_eq_some.mp hn
    cases hs'
    refine ⟨h.move (ht ▸ not_false) ?_, fun _ htn => htn.move fun hw => ?_⟩
    · split_ifs <;> exact not_false
    · rw [Member.Willing, ht] at hw
      exact hw.elim
  | attempt t sameCpu =>
    rw [next] at hn
    split at hn
    · rename_i left timed hlk ht
      cases hn
      split_ifs with hlc
      · refine ⟨h.move (ht ▸ not_false) ?_, fun _ _ => tended_of_locked hlc⟩
        rw [Place.attemptFails]
        split_ifs <;> exact not_false
      · exact ⟨h.take (Bool.eq_false_of_not_eq_true hlc) (ht ▸ not_false),
          fun _ _ => tended_of_locked rfl⟩
    · exact nomatch hn
  | enter t =>
    rw [next] at hn
    split at hn
    · rename_i timed hlk ht
      cases hn
      obtain ⟨hiv, hlc⟩ := @Invariant.test _ _ _ s t h timed (ht ▸ not_false)
      exact ⟨hiv, fun _ _ => tended_of_locked hlc⟩
    · exact nomatch hn
  | insert t =>
    rw [next] at hn
    split at hn
    · rename_i u timed hlk ht
      obtain ⟨-, hs'⟩ := ite_none_right_eq_some.mp hn
      cases hs'
      exact ⟨h.insert ht, fun _ _ => tended_of_locked (h.inserting u hlk)⟩
    · exact nomatch hn
  | cancel t =>
    rw [next] at hn
    split at hn
    · rename_i timed ht
      cases hn
      refine ⟨h.set rfl rfl (h.listed.update (iff_of_false not_false (ht ▸ not_false)))
        h.inserting, fun _ htn => htn.set rfl rfl id fun hw => ?_⟩
      rw [Member.Willing, ht] at hw
      exact hw
    · exact nomatch hn
  | check t =>
    rw [next] at hn
    split at hn
    · rename_i timed ht
      cases hn
      refine ⟨h.move (ht ▸ not_false) not_false, fun _ htn => htn.move fun hw => ?_⟩
      rw [Member.Willing, ht] at hw
      exact Bool.and_eq_false_imp.mpr hw
    · exact nomatch hn
  | relock t =>
    rw [next] at hn
    split at hn
    · rename_i timed timedOut hlk ht
      cases hn
      split_ifs with hou
      · refine ⟨h.move (ht ▸ not_false) not_false, fun _ htn => htn.move fun hw => ?_⟩
        rw [Member.Willing, ht] at hw
        exact absurd (hw.symm.trans hou) Bool.false_ne_true
      · obtain ⟨hiv, hlc⟩ := @Invariant.test _ _ _ s t h timed (ht ▸ not_false)
        exact ⟨hiv, fun _ _ => tended_of_locked hlc⟩
    · exact nomatch hn
  | release t =>
    obtain ⟨⟨hlk, hpl, ht, hlc⟩, hs'⟩ := ite_none_right_eq_some.mp hn
    cases hs'
    refine ⟨h.release ht hlk hlc, fun hhd _ => tended_notify (h.listed.update Iff.rfl) ?_⟩
    intro u hu hwt
    by_cases hut : u = t
    · dsimp only at hwt
      rw [hut, update_self] at hwt
      exact nomatch hpl.symm.trans hwt
    · dsimp only at hwt ⊢
      rw [update_of_ne hut] at hwt ⊢
      exact hhd u hu hwt
  | ready =>
    rw [next] at hn
    split at hn
    · rename_i u hlk
      cases hn
      exact ⟨h.ready u, fun _ htn => htn.set rfl rfl id fun hw => hw.ready⟩
    · exact nomatch hn
  | callout t =>
    obtain ⟨-, hs'⟩ := ite_none_right_eq_some.mp hn
    cases hs'
    exact ⟨⟨h.holders, h.listed, h.inserting⟩, fun _ => id⟩
  | handleTimeout =>
    rw [next] at hn
    split at hn
    · rename_i t ht
      cases hn
      have hqt : Invariant { s with firing := none } := ⟨h.holders, h.listed, h.inserting⟩
      exact ⟨hqt.handleTimeout, fun hread htn =>
        Tended.handleTimeout (s := { s with firing := none }) htn (hread t ht)⟩
    · exact nomatch hn

end Invariants

/-- One thread at most holds the mutex in any run; nobody is left waiting for a free mutex in a run in
which wake-ups and timeouts do not meet. -/
theorem mutex_tended {T : Type*} [DecidableEq T] [Fintype T] (retries : ℕ) :
    (∀ s : State T, Runs.Reaches (next retries) (fun _ _ => True) initial s →
      ∀ t u, (s.member t).holds = true → (s.member u).holds = true → t = u) ∧
    ∀ s : State T, Runs.Reaches (next retries) Orderly initial s → ¬ Stuck s := by
  constructor
  · intro s h t u ht hu
    have hiv : Invariant s := h.invariant Invariant invariant_initial fun _ _ _ hs _ hn =>
      (hs.step hn).1
    by_contra hne
    have hle := add_le_tally (fun m : Member => m.holds.toNat) s.member hne
    rw [← hiv.holders, ht, hu] at hle
    exact absurd (hle.trans (Bool.toNat_le _)) (by decide)
  · rintro s h ⟨hfr, hls, hno⟩
    have hiv : Invariant s ∧ Tended s := by
      refine h.invariant (fun s => Invariant s ∧ Tended s) ⟨invariant_initial, ?_⟩ ?_
      · exact fun _ hls => absurd rfl hls
      · exact fun s e s' hs hok hn => ⟨(hs.1.step hn).1, (hs.1.step hn).2 hok hs.2⟩
    obtain ⟨t, ht⟩ := hiv.2 hfr hls
    exact hno t ht.active

theorem mutex_tended_handover : ∃ s : State (Fin 3), (s.member 1).holds = true ∧ s.waiters = [2] ∧
    (∀ t u, (s.member t).holds = true → (s.member u).holds = true → t = u) ∧ ¬ Stuck s := by
  have hrn : (Runs.run (next 60) Orderly (initial : State (Fin 3)) [.tryAcquire 0, .acquire 1 true,
      .attempt 1 false, .attempt 1 true, .enter 1, .insert 1, .acquire 2 true, .attempt 2 true,
      .enter 2, .insert 2, .release 0, .ready, .cancel 1, .check 1, .relock 1]).map
        (fun s => ((s.member 1).holds, s.waiters)) = some (true, [2]) := by decide +kernel
  obtain ⟨s, hs, hst⟩ := map_eq_some_iff.mp hrn
  obtain ⟨hhl, hls⟩ := Prod.mk.inj hst
  have hor := Runs.run_reaches hs
  obtain ⟨hec, htn⟩ := @mutex_tended (Fin 3) _ _ 60
  refine ⟨s, hhl, hls, hec s ?_, htn s hor⟩
  exact hor.mono fun _ _ _ => trivial

/-- The timeout of a thread runs after a release has woken it: it gives up, and a second one waits
for a free mutex. -/
theorem mutex_left_free : ∃ s : State (Fin 3),
    Runs.Reaches (next 60) (fun _ _ => True) initial s ∧ Stuck s := by
  have hrn : ((Runs.run (next 60) (fun _ _ => True) (initial : State (Fin 3)) [.tryAcquire 0,
      .acquire 1 true, .attempt 1 true, .enter 1, .insert 1, .acquire 2 false, .attempt 2 true,
      .enter 2, .insert 2, .release 0, .ready, .callout 1, .handleTimeout, .cancel 1, .check 1,
      .relock 1]).map fun s => decide (Stuck s)) = some true := by decide +kernel
  obtain ⟨s, hs, hsc⟩ := map_eq_some_iff.mp hrn
  exact ⟨s, Runs.run_reaches hs, of_decide_eq_true hsc⟩

end MutexTimeout
