import SalernosKernel.Runs

/-! # Waiting in `poll`

`com_sys_syscall_poll` with `do_wait` set, and the sources of events of the polled files. A source
makes a file ready and then runs the poll callback of the file. -/
namespace Poll

open Function

inductive Pc (I : Type*) where
  | registering (rest : List I)
  /-- In the loop over the descriptors, with whether one was ready and `last_recheck`. -/
  | scanning (rest : List I) (found lastRecheck : Bool)
  /-- Behind the loop, before the thread is on `poller.waiters`. -/
  | deciding
  | waiting
  | woken
  | returned
  deriving DecidableEq

structure State (I : Type*) where
  pc : Pc I
  polled : I → Bool
  ready : I → Bool
  /-- A callback has been run since the file is ready. -/
  announced : I → Bool

inductive Event (I : Type*) where
  | step
  /-- The delay has elapsed before the wait. -/
  | skipWait
  /-- A timeout or a signal takes the thread from `poller.waiters`. -/
  | interrupt
  | resume (lastRecheck : Bool)
  | raise (i : I)
  | drain (i : I)
  | callback (i : I)
  deriving DecidableEq

section Code

variable {I : Type*} [DecidableEq I] (fds : List I)

def advance (s : State I) : Option (State I) :=
  match s.pc with
  | .registering (i :: rest) =>
    some { s with pc := .registering rest, polled := update s.polled i true }
  | .registering [] => some { s with pc := .scanning fds false false }
  | .scanning (i :: rest) found lastRecheck =>
    some { s with pc := .scanning rest (found || s.ready i) lastRecheck }
  | .scanning [] found lastRecheck =>
    some { s with pc := if found || lastRecheck then .returned else .deciding }
  | .deciding => some { s with pc := .waiting }
  | _ => none

def callback (s : State I) (i : I) : State I :=
  { s with
    announced := update s.announced i (s.ready i)
    pc := if s.polled i ∧ s.pc = .waiting then .woken else s.pc }

def next (s : State I) : Event I → Option (State I)
  | .step => advance fds s
  | .skipWait => if s.pc = .deciding then some { s with pc := .scanning fds false true } else none
  | .interrupt => if s.pc = .waiting then some { s with pc := .woken } else none
  | .resume lastRecheck =>
    if s.pc = .woken then some { s with pc := .scanning fds false lastRecheck } else none
  | .raise i => some { s with ready := update s.ready i true }
  | .drain i => some { s with
      ready := update s.ready i false, announced := update s.announced i false }
  | .callback i => some (callback s i)

def start (ready : I → Bool) : State I :=
  ⟨.registering fds, fun _ => false, ready, fun _ => false⟩

end Code

section Events

variable {I : Type*} {fds : List I} {s s' : State I} {i : I} {e : Event I}

def Pc.Past (i : I) : Pc I → Prop
  | .scanning rest found lastRecheck => i ∉ rest ∧ found = false ∧ lastRecheck = false
  | .deciding | .waiting => True
  | _ => False

def Pc.unregistered : Pc I → List I
  | .registering rest => rest
  | _ => []

def Missed (fds : List I) (s : State I) : Prop :=
  s.pc = .waiting ∧ ∃ i ∈ fds, s.ready i = true ∧ s.announced i = true

/-- No callback of a ready file is run between the check of the file and the wait. -/
def Timely (s : State I) : Event I → Prop
  | .callback i => s.ready i = true → s.pc = .waiting ∨ ¬ s.pc.Past i
  | _ => True

instance [DecidableEq I] (i : I) : DecidablePred (Pc.Past i) := fun pc =>
  match pc with
  | .scanning .. => inferInstanceAs (Decidable (_ ∧ _ ∧ _))
  | .deciding | .waiting => isTrue trivial
  | .registering _ | .woken | .returned => isFalse id

instance [DecidableEq I] (s : State I) : DecidablePred (Timely s) := fun e =>
  match e with
  | .callback i => inferInstanceAs (Decidable (s.ready i = true → s.pc = .waiting ∨ ¬ s.pc.Past i))
  | .step | .skipWait | .interrupt | .resume _ | .raise _ | .drain _ => isTrue trivial

structure Invariant (fds : List I) (s : State I) : Prop where
  announced : ∀ i, s.announced i = true → s.ready i = true
  polled : ∀ i ∈ fds, s.polled i = true ∨ i ∈ s.pc.unregistered
  unseen : ∀ i ∈ fds, s.announced i = true → ¬ s.pc.Past i

theorem Invariant.setPc (h : Invariant fds s) {pc : Pc I} (hold : s.pc.unregistered = [])
    (hpc : ∀ i ∈ fds, s.announced i = true → pc.Past i → s.pc.Past i) :
    Invariant fds { s with pc := pc } := by
  refine ⟨h.announced, fun i hi => ?_, fun i hi ha hps => h.unseen i hi ha (hpc i hi ha hps)⟩
  rcases h.polled i hi with hpl | hme
  · exact .inl hpl
  · rw [hold] at hme
    cases hme

variable [DecidableEq I]

theorem Invariant.advance (h : Invariant fds s) (hn : advance fds s = some s') :
    Invariant fds s' := by
  rw [Poll.advance] at hn
  split at hn
  · next j rest hpc =>
    cases hn
    refine ⟨h.announced, fun i hi => ?_, fun _ _ _ hps => hps⟩
    change update s.polled j true i = true ∨ _
    by_cases hij : i = j
    · rw [hij, update_self]
      exact .inl rfl
    · rw [update_of_ne hij]
      rcases h.polled i hi with hpl | hme
      · exact .inl hpl
      · rw [hpc] at hme
        exact .inr ((List.mem_cons.mp hme).resolve_left hij)
  · next hpc =>
    cases hn
    refine ⟨h.announced, fun i hi => ?_, fun i hi _ hps => hps.1 hi⟩
    rcases h.polled i hi with hpl | hme
    · exact .inl hpl
    · rw [hpc] at hme
      cases hme
  · next j rest found last hpc =>
    cases hn
    apply h.setPc
    · rw [hpc]
      rfl
    · rintro i - ha ⟨hrs, hfn, hls⟩
      rw [Bool.or_eq_false_iff] at hfn
      rw [hpc]
      refine ⟨fun hme => ?_, hfn.1, hls⟩
      obtain rfl := (List.mem_cons.mp hme).resolve_right hrs
      exact absurd ((h.announced i ha).symm.trans hfn.2) (by decide)
  · next found last hpc =>
    cases hn
    apply h.setPc
    · rw [hpc]
      rfl
    · intro i _ _ hps
      rw [hpc]
      cases found <;> cases last <;> first | exact hps.elim | exact ⟨List.not_mem_nil, rfl, rfl⟩
  · next hpc =>
    cases hn
    apply h.setPc
    · rw [hpc]
      rfl
    · intro _ _ _ _
      rw [hpc]
      trivial
  · cases hn

theorem Invariant.callback (h : Invariant fds s) (hok : Timely s (.callback i)) :
    Invariant fds (callback s i) := by
  have hpl : ∀ j ∈ fds, s.polled j = true ∨ j ∈ (Poll.callback s i).pc.unregistered := by
    intro j hj
    rw [Poll.callback]
    split_ifs with hwk
    · have hj := h.polled j hj
      rwa [hwk.2] at hj
    · exact h.polled j hj
  refine ⟨fun j hj => ?_, hpl, fun j hj ha hps => ?_⟩
  · change update s.announced i (s.ready i) j = true at hj
    by_cases hji : j = i
    · subst hji
      rwa [update_self] at hj
    · rw [update_of_ne hji] at hj
      exact h.announced j hj
  · change update s.announced i (s.ready i) j = true at ha
    change (if s.polled i = true ∧ s.pc = .waiting then Pc.woken else s.pc).Past j at hps
    split_ifs at hps with hwk
    · exact hps
    · by_cases hji : j = i
      · subst hji
        rw [update_self] at ha
        rcases hok ha with hwt | hnt
        · rcases h.polled j hj with hp | hme
          · exact hwk ⟨hp, hwt⟩
          · rw [hwt] at hme
            cases hme
        · exact hnt hps
      · rw [update_of_ne hji] at ha
        exact h.unseen j hj ha hps

theorem Invariant.next (h : Invariant fds s) (hok : Timely s e) (hn : next fds s e = some s') :
    Invariant fds s' := by
  cases e with
  | step => exact h.advance hn
  | callback i =>
    cases hn
    exact h.callback hok
  | skipWait | resume last =>
    rw [Poll.next] at hn
    split_ifs at hn with hpc
    cases hn
    exact h.setPc (by rw [hpc]; rfl) fun i hi _ hps => absurd hi hps.1
  | interrupt =>
    rw [Poll.next] at hn
    split_ifs at hn with hpc
    cases hn
    exact h.setPc (by rw [hpc]; rfl) fun _ _ _ hps => hps.elim
  | raise i =>
    cases hn
    refine ⟨fun j hj => ?_, h.polled, h.unseen⟩
    change update s.ready i true j = true
    by_cases hji : j = i
    · rw [hji, update_self]
    · rw [update_of_ne hji]
      exact h.announced j hj
  | drain i =>
    cases hn
    have hold : ∀ j, update s.announced i false j = true → j ≠ i ∧ s.announced j = true := by
      intro j hj
      by_cases hji : j = i
      · rw [hji, update_self] at hj
        cases hj
      · rw [update_of_ne hji] at hj
        exact ⟨hji, hj⟩
    refine ⟨fun j hj => ?_, h.polled, fun j hj ha => h.unseen j hj (hold j ha).2⟩
    change update s.ready i false j = true
    rw [update_of_ne (hold j hj).1]
    exact h.announced j (hold j hj).2

/-- No event is missed if no callback comes between the check of its file and the wait. -/
theorem poll_misses_nothing (fds : List I) (ready : I → Bool) {s : State I}
    (h : Runs.Reaches (next fds) Timely (start fds ready) s) : ¬ Missed fds s := by
  have hiv : Invariant fds s := by
    apply h.invariant (Invariant fds)
    · exact ⟨(fun _ ha => by cases ha), fun i hi => .inr hi, fun _ _ _ hps => hps⟩
    · intro s e s' hs hok hn
      exact hs.next hok hn
  rintro ⟨hpc, i, hi, -, ha⟩
  apply hiv.unseen i hi ha
  rw [hpc]
  trivial

end Events

/-- The event and its callback come between the check and the wait. -/
theorem poll_misses : ∃ s : State Unit,
    Runs.Reaches (next [()]) (fun _ _ => True) (start [()] fun _ => false) s ∧ Missed [()] s := by
  have hrn : (Runs.run (next [()]) (fun _ _ => True) (start [()] fun _ => false)
      [.step, .step, .step, .raise (), .callback (), .step, .step]).map
        (fun s => (s.pc, s.ready (), s.announced ())) = some (.waiting, true, true) := by
    decide +kernel
  obtain ⟨s, hs, hed⟩ := Option.map_eq_some_iff.mp hrn
  simp only [Prod.mk.injEq] at hed
  exact ⟨s, Runs.run_reaches hs, hed.1, (), List.mem_singleton.mpr rfl, hed.2⟩

theorem poll_misses_nothing_woken : ∃ s : State Unit, s.pc = .woken ∧ ¬ Missed [()] s := by
  have hrn : (Runs.run (next [()]) Timely (start [()] fun _ => false)
      [.step, .step, .step, .step, .step, .raise (), .callback ()]).map State.pc = some .woken := by
    decide +kernel
  obtain ⟨s, hs, hpc⟩ := Option.map_eq_some_iff.mp hrn
  exact ⟨s, hpc, poll_misses_nothing [()] (fun _ => false) (Runs.run_reaches hs)⟩

end Poll
