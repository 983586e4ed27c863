import SalernosKernel.SignalSteps

/-! # Stop and continue

One stop signal sent to a process until all its threads wait on `stop_waitlist`, and one `SIGCONT`
after that. -/
namespace SignalStop

open BitMask Signals SignalSteps List Option

inductive Phase where
  | stopping
  | continued
  deriving DecidableEq

structure State where
  phase : Phase
  proc : Proc

inductive Step where
  | thread (e : Event)
  | sendCont

def IsStopStep : Event → Prop
  | .dispatch _ | .join _ | .resume _ | .schedule _ | .preempt _ | .sleep _ | .wakeUp _ => True
  | _ => False

instance : DecidablePred IsStopStep
  | .dispatch _ | .join _ | .resume _ | .schedule _ | .preempt _ | .sleep _ | .wakeUp _ =>
    isTrue trivial
  | .sigprocmask .. | .sigaction .. | .sigreturn .. | .send _ | .sendToThread .. | .terminate _ =>
    isFalse id

def StepEnabled (s : State) : Step → Prop
  | .thread e => IsStopStep e ∧ Enabled s.proc e
  | .sendCont => s.phase = .stopping ∧
      ∀ t ∈ s.proc.threads, t.activity = .waiting .stop ∧ t.pc = .stopped

instance (s : State) : DecidablePred (StepEnabled s)
  | .thread e => inferInstanceAs (Decidable (IsStopStep e ∧ Enabled s.proc e))
  | .sendCont => inferInstanceAs (Decidable (s.phase = .stopping ∧
      ∀ t ∈ s.proc.threads, t.activity = .waiting .stop ∧ t.pc = .stopped))

def next (past : ℕ → ℕ) (s : State) : Step → Option State
  | .thread e => (SignalSteps.next past s.proc e).map fun p => ⟨s.phase, p⟩
  | .sendCont => some ⟨.continued, comIpcSignalSendToProc s.proc SIGCONT⟩

def Reached (past : ℕ → ℕ) : State → State → Prop := Runs.Reaches (next past) StepEnabled

/-- No assertion fails, and once no woken thread is left to go on, all have left the stop. -/
def StopsAndContinues (past : ℕ → ℕ) (p : Proc) (sig : Signal) : Prop :=
  ∀ s, Reached past ⟨.stopping, comIpcSignalSendToProc p sig⟩ s →
    (∀ e, StepEnabled s e → next past s e ≠ none) ∧
    (s.phase = .continued →
      (∀ t ∈ s.proc.threads, t.pc = .stopped → t.activity = .waiting .stop) →
      (∀ t ∈ s.proc.threads, t.pc = .outside ∧ t.activity ≠ .waiting .stop) ∧
        s.proc.stopSignal = none)

def Deliverable (t : Thread) (sig : Signal) : Prop := Has t.pending sig ∧ ¬ Has t.masked sig

structure Quiet (sig : Signal) (t : Thread) : Prop where
  outside : t.pc = .outside
  awake : t.activity ≠ .waiting .stop
  stop_unmasked : ¬ Has t.masked sig
  cont_unmasked : ¬ Has t.masked SIGCONT
  nothing : ∀ s, ¬ Deliverable t s

/-- A process of one or more threads that is not stopped, where no signal is deliverable and none
masks `SIGCONT` or the stop signal, with default dispositions. -/
structure Setup (p : Proc) (sig : Signal) : Prop where
  live : p.exited = false
  unstopped : p.stopSignal = none
  isStop : sig.val + 1 ∈ [19, 20, 21, 22]
  default_stop : Default p sig
  default_cont : Default p SIGCONT
  threads : ∀ t ∈ p.threads, Quiet sig t
  inhabited : p.threads ≠ []

variable {past : ℕ → ℕ} {p p' : Proc} {t : Thread} {sig : Signal} {s s' : State} {i : ℕ}

theorem Setup.valid (h : Setup p sig) : sig.val + 1 < 64 := by
  have hme := h.isStop
  simp only [mem_cons, not_mem_nil, or_false] at hme
  omega

theorem Setup.ne_cont (h : Setup p sig) : sig ≠ SIGCONT := by
  rintro rfl
  exact absurd h.isStop (by decide)

theorem props_of_isStop (past : ℕ → ℕ) (h : sig.val + 1 ∈ [19, 20, 21, 22]) :
    signalProperties past sig &&& SA_KILL = 0 ∧ signalProperties past sig &&& SA_STOP ≠ 0 := by
  simp only [mem_cons, not_mem_nil, or_false] at h
  rcases h with h | h | h | h <;>
    simp [signalProperties, h, signalTable, SA_KILL, SA_STOP, SA_TTYSTOP]

structure StoppedBy (sig : Signal) (i : ℕ) (t : Thread) (pc : Pc) (a : Activity) (p p' : Proc) :
    Prop where
  thread : ∃ t' : Thread, p'.threads[i]? = some t' ∧ t'.pc = pc ∧ t'.activity = a ∧
    t'.masked = t.masked ∧ ∀ s, Has t'.pending s ↔ s ≠ sig ∧ Has t.pending s
  others : ∀ j, j ≠ i → p'.threads[j]? = (p.threads[j]?).map fun u =>
    if p.stopSignal = none then sendToThread (some sig) sig u else u
  stopSignal : p'.stopSignal = some (p.stopSignal.getD sig)
  sigaction : p'.sigaction = p.sigaction
  exited : p'.exited = p.exited

theorem stoppedBy_dispatch (past : ℕ → ℕ) (hsp : sig.val + 1 ∈ [19, 20, 21, 22])
    (hdf : Default p sig) (ht : p.threads[i]? = some t) (hrn : t.activity = .running)
    (hch : comIpcSignalCheckNolock t = some sig) :
    StoppedBy sig i t .stopping .running p (comIpcSignalDispatch past p i).2 := by
  obtain ⟨hkl, hpr⟩ := props_of_isStop past hsp
  let q := p.modifyThread i fun t => { t with pending := erase t.pending sig }
  have hq : ∀ j, q.threads[j]? = (p.threads[j]?).map fun t =>
      if j = i then { t with pending := erase t.pending sig } else t :=
    fun j => getElem?_modifyThread _
  have hds : (comIpcSignalDispatch past p i).2 = (comSysProcStopNolock q sig).modifyThread i
      fun t => { t with pending := erase t.pending sig, pc := .stopping } := by
    have hqd : Default q sig := hdf
    rw [dispatch_some ht hch]
    simp [act, q, hqd, hkl, hpr]
  rw [hds]
  refine ⟨?_, fun j hj => ?_, stopNolock_stopSignal q sig, stopNolock_sigaction q sig,
    stopNolock_exited q sig⟩
  · rw [getElem?_modifyThread, getElem?_stopNolock, hq, ht]
    refine ⟨_, rfl, by simp, ?_, ?_, fun s => ?_⟩
    · by_cases hno : q.stopSignal = none
      · simpa [hno] using
          activity_sendToThread_running (t := { t with pending := erase t.pending sig }) hrn
      · simpa [hno] using hrn
    · by_cases hno : q.stopSignal = none <;> simp [hno]
    · by_cases hno : q.stopSignal = none
      · simp only [hno, if_true, sendToThread_pending, has_erase, has_insert]
        tauto
      · simp only [hno, if_true, if_false, has_erase]
        tauto
  · rw [getElem?_modifyThread, getElem?_stopNolock, hq]
    simp [hj, q, Proc.modifyThread, Function.comp_def]

inductive Shape (sig : Signal) (t : Thread) : Phase → Option Signal → Prop where
  | sent : t.pc = .outside → t.activity ≠ .waiting .stop → Has t.pending sig →
      (∀ s, s ≠ sig → ¬ Deliverable t s) → Shape sig t .stopping none
  | leaving : t.pc = .stopping → t.activity ≠ .waiting .stop → (∀ s, ¬ Deliverable t s) →
      Shape sig t .stopping (some sig)
  | waiting : t.pc = .stopped → t.activity = .waiting .stop → (∀ s, ¬ Deliverable t s) →
      Shape sig t .stopping (some sig)
  | woken : t.pc = .stopped → t.activity ≠ .waiting .stop → Has t.pending SIGCONT →
      (∀ s, s ≠ SIGCONT → ¬ Deliverable t s) → Shape sig t .continued (some sig)
  | out : t.pc = .outside → t.activity ≠ .waiting .stop → (∀ s, ¬ Deliverable t s) →
      Shape sig t .continued none

section Shape

variable {phase : Phase} {stop : Option Signal} {a : Activity}

section

variable (h : Shape sig t phase stop)

include h

theorem Shape.setActivity (ht : t.activity ≠ .waiting .stop)
    (ha : a ≠ .waiting .stop) : Shape sig (setActivity a t) phase stop := by
  cases h with
  | sent hpc _ hpn hrs => exact .sent hpc ha hpn hrs
  | leaving hpc _ hrs => exact .leaving hpc ha hrs
  | waiting _ hwt _ => exact absurd hwt ht
  | woken hpc _ hpn hrs => exact .woken hpc ha hpn hrs
  | out hpc _ hrs => exact .out hpc ha hrs

theorem Shape.of_outside (hpc : t.pc = .outside) :
    phase = .stopping ∧ stop = none ∧ Has t.pending sig ∧ (∀ s, s ≠ sig → ¬ Deliverable t s) ∨
      ∀ s, ¬ Deliverable t s := by
  cases h with
  | sent _ _ hpn hrs => exact .inl ⟨rfl, rfl, hpn, hrs⟩
  | leaving hpc' | waiting hpc' | woken hpc' => simp [hpc] at hpc'
  | out _ _ hrs => exact .inr hrs

theorem Shape.join (hpc : t.pc = .stopping) :
    Shape sig { t with activity := .waiting .stop, pc := .stopped } phase stop := by
  cases h with
  | leaving _ _ hrs => exact .waiting rfl rfl hrs
  | sent hpc' | waiting hpc' | woken hpc' | out hpc' => simp [hpc] at hpc'

theorem Shape.of_stopped (hpc : t.pc = .stopped)
    (ht : t.activity ≠ .waiting .stop) :
    phase = .continued ∧ stop = some sig ∧ Has t.pending SIGCONT ∧
      ∀ s, s ≠ SIGCONT → ¬ Deliverable t s := by
  cases h with
  | waiting _ hwt _ => exact absurd hwt ht
  | woken _ _ hpn hrs => exact ⟨rfl, rfl, hpn, hrs⟩
  | sent hpc' | leaving hpc' | out hpc' => simp [hpc] at hpc'

end

theorem Shape.of_waiting (h : Shape sig t .stopping stop) (hpc : t.pc = .stopped) :
    stop = some sig ∧ ∀ s, ¬ Deliverable t s := by
  cases h with
  | waiting _ _ hrs => exact ⟨rfl, hrs⟩
  | sent hpc' | leaving hpc' => simp [hpc] at hpc'

end Shape

structure Single (sig : Signal) (s : State) (t : Thread) : Prop where
  threads : s.proc.threads = [t]
  live : s.proc.exited = false
  default_stop : Default s.proc sig
  stop_unmasked : ¬ Has t.masked sig
  cont_unmasked : ¬ Has t.masked SIGCONT
  shape : Shape sig t s.phase s.proc.stopSignal

theorem Single.of_at {P : Thread → Prop} (h : Single sig s t) (hat : At s.proc i P) :
    i = 0 ∧ P t := by
  obtain ⟨u, hu, hP⟩ := hat
  rw [h.threads] at hu
  cases i with
  | zero =>
    obtain rfl : t = u := by simpa using hu
    exact ⟨rfl, hP⟩
  | succ i => simp at hu

theorem eq_singleton {ts : List Thread} (h₀ : ts[0]? = some t) (h₁ : ts[1]? = none) : ts = [t] := by
  match ts, h₀, h₁ with
  | [u], h₀, _ => simpa using h₀
  | _ :: _ :: _, _, h₁ => simp at h₁

theorem Single.modify (h : Single sig s t) (f : Thread → Thread) :
    (s.proc.modifyThread 0 f).threads = [f t] := by
  unfold Proc.modifyThread
  rw [h.threads]
  rfl

theorem Single.setActivity (h : Single sig s t) {a : Activity} (ht : t.activity ≠ .waiting .stop)
    (ha : a ≠ .waiting .stop) :
    Single sig ⟨s.phase, s.proc.modifyThread 0 (setActivity a)⟩ (setActivity a t) := by
  refine ⟨h.modify _, h.live, h.default_stop, h.stop_unmasked, h.cont_unmasked, ?_⟩
  exact h.shape.setActivity ht ha

theorem Single.dispatch (past : ℕ → ℕ) (h : Single sig s t)
    (hsp : sig.val + 1 ∈ [19, 20, 21, 22]) (hrn : t.activity = .running)
    (hpc : t.pc = .outside) :
    ∃ t', Single sig ⟨s.phase, (comIpcSignalDispatch past s.proc 0).2⟩ t' := by
  have ht : s.proc.threads[0]? = some t := by simp [h.threads]
  rcases h.shape.of_outside hpc with ⟨hph, hno, hpn, hrs⟩ | hnt
  · have hch : comIpcSignalCheckNolock t = some sig :=
      check_eq_some.mpr ⟨⟨hpn, h.stop_unmasked⟩, fun low hlw => hrs low hlw.ne⟩
    have hst := stoppedBy_dispatch past hsp h.default_stop ht hrn hch
    obtain ⟨t', ht', hpc', hact', hms', hpn'⟩ := hst.thread
    have hnx : (comIpcSignalDispatch past s.proc 0).2.threads[1]? = none := by
      rw [hst.others 1 Nat.one_ne_zero, h.threads]
      rfl
    refine ⟨t', eq_singleton ht' hnx, hst.exited.trans h.live, ?_, ?_, ?_, ?_⟩
    · unfold Default
      rw [hst.sigaction]
      exact h.default_stop
    · rw [hms']
      exact h.stop_unmasked
    · rw [hms']
      exact h.cont_unmasked
    · rw [hst.stopSignal, hno, hph]
      refine .leaving hpc' (by simp [hact']) fun low hlw => ?_
      have hlw' : low ≠ sig ∧ Has t.pending low := (hpn' low).mp hlw.1
      exact hrs low hlw'.1 ⟨hlw'.2, hms' ▸ hlw.2⟩
  · have hch : comIpcSignalCheckNolock t = none := check_eq_none.mpr hnt
    rw [dispatch_none ht hch]
    exact ⟨t, h⟩

theorem Single.join (h : Single sig s t) (hpc : t.pc = .stopping) :
    Single sig ⟨s.phase, s.proc.modifyThread 0 fun t =>
      { t with activity := .waiting .stop, pc := .stopped }⟩
      { t with activity := .waiting .stop, pc := .stopped } :=
  ⟨h.modify _, h.live, h.default_stop, h.stop_unmasked, h.cont_unmasked, h.shape.join hpc⟩

theorem Single.resume (h : Single sig s t) (hrn : t.activity = .running) (hpc : t.pc = .stopped) :
    ∃ p', SignalSteps.resume s.proc 0 = some p' ∧ ∃ t', Single sig ⟨s.phase, p'⟩ t' := by
  obtain ⟨hph, hsg, hcn, hrs⟩ := h.shape.of_stopped hpc (by simp [hrn])
  refine ⟨⟨[{ t with pending := erase t.pending SIGCONT, pc := .outside }], s.proc.pending,
    s.proc.sigaction, none, s.proc.exited⟩, ?_, _, rfl, h.live, h.default_stop, h.stop_unmasked,
    h.cont_unmasked, ?_⟩
  · simp [SignalSteps.resume, h.threads, hcn, Proc.modifyThread, hsg, leaveStop, hrn]
  · rw [hph]
    refine .out rfl (by simp [hrn]) fun low hlw => ?_
    have hne : low ≠ SIGCONT := by
      rintro rfl
      simp [Deliverable] at hlw
    exact hrs low hne (by simpa [Deliverable, hne] using hlw)

theorem Single.sendCont (h : Single sig s t) (hph : s.phase = .stopping) (hpc : t.pc = .stopped) :
    Single sig ⟨.continued, comIpcSignalSendToProc s.proc SIGCONT⟩
      (sendToThread (some sig) SIGCONT t) := by
  have hsh := h.shape
  rw [hph] at hsh
  obtain ⟨hsg, hrs⟩ := hsh.of_waiting hpc
  have hac : Accepts (some sig) SIGCONT t := ⟨h.cont_unmasked, .inr rfl⟩
  have hsn : comIpcSignalSendToProc s.proc SIGCONT =
      { s.proc with threads := [sendToThread (some sig) SIGCONT t] } := by
    have hvl : SIGCONT.val + 1 < 64 := by decide
    simp [comIpcSignalSendToProc, hvl, sendToProc, h.live, hsg, h.threads, sendLoop, hac]
  rw [hsn]
  refine ⟨rfl, h.live, h.default_stop, ?_, ?_, ?_⟩
  · simpa using h.stop_unmasked
  · simpa using h.cont_unmasked
  · rw [hsg]
    refine .woken (by simpa using hpc) ?_ (by simp) fun low hne hlw => ?_
    · rcases activity_of_accepts hac with hact | hact <;> simp [hact]
    · exact hrs low (by simpa [Deliverable, hne] using hlw)

theorem Single.next (h : Single sig s t) (hsp : sig.val + 1 ∈ [19, 20, 21, 22]) {e : Step}
    (he : StepEnabled s e) : ∃ s' t', next past s e = some s' ∧ Single sig s' t' := by
  cases e with
  | sendCont => exact ⟨_, _, rfl, h.sendCont he.1 (he.2 t (by simp [h.threads])).2⟩
  | thread e =>
    obtain ⟨hlc, he⟩ := he
    cases e with
    | sigprocmask | sigaction | sigreturn | send | sendToThread | terminate => exact hlc.elim
    | dispatch i =>
      obtain ⟨rfl, hrn, hpc⟩ := h.of_at he
      obtain ⟨t', ht'⟩ := h.dispatch past hsp hrn hpc
      exact ⟨_, t', rfl, ht'⟩
    | join i =>
      obtain ⟨rfl, hrn, hpc⟩ := h.of_at he
      exact ⟨_, _, rfl, h.join hpc⟩
    | resume i =>
      obtain ⟨rfl, hrn, hpc⟩ := h.of_at he
      obtain ⟨p', hp', t', ht'⟩ := h.resume hrn hpc
      exact ⟨_, t', by simp [SignalStop.next, SignalSteps.next, hp'], ht'⟩
    | schedule i =>
      obtain ⟨rfl, hrd⟩ := h.of_at he
      exact ⟨_, _, rfl, h.setActivity (by simp [hrd]) (by simp)⟩
    | preempt i =>
      obtain ⟨rfl, hrn⟩ := h.of_at he
      exact ⟨_, _, rfl, h.setActivity (by simp [hrn]) (by simp)⟩
    | sleep i =>
      obtain ⟨rfl, hrn, -⟩ := h.of_at he
      exact ⟨_, _, rfl, h.setActivity (by simp [hrn]) (by simp)⟩
    | wakeUp i =>
      obtain ⟨rfl, hwt⟩ := h.of_at he
      exact ⟨_, _, rfl, h.setActivity (by simp [hwt]) (by simp)⟩

theorem Setup.single (h : Setup p sig) (hon : p.threads.length = 1) :
    ∃ t, Single sig ⟨.stopping, comIpcSignalSendToProc p sig⟩ t := by
  obtain ⟨t, ht⟩ := length_eq_one_iff.mp hon
  have hqt := h.threads t (by simp [ht])
  have hac : Accepts none sig t := ⟨hqt.stop_unmasked, .inl rfl⟩
  have hsn : comIpcSignalSendToProc p sig = { p with threads := [sendToThread none sig t] } := by
    simp [comIpcSignalSendToProc, h.valid, sendToProc, h.live, h.unstopped, ht, sendLoop, hac]
  rw [hsn]
  refine ⟨_, rfl, h.live, h.default_stop, ?_, ?_, ?_⟩
  · simpa using hqt.stop_unmasked
  · simpa using hqt.cont_unmasked
  · rw [h.unstopped]
    refine .sent (by simpa using hqt.outside) ?_ (by simp) fun low hne hlw => ?_
    · rcases activity_of_accepts hac with hact | hact <;> simp [hact]
    · exact hqt.nothing low (by simpa [Deliverable, hne] using hlw)

theorem Setup.stopsAndContinues (h : Setup p sig) (hon : p.threads.length = 1) :
    StopsAndContinues past p sig := by
  intro s hs
  obtain ⟨t, hsng⟩ : ∃ t, Single sig s t := by
    apply hs.invariant (fun s => ∃ t, Single sig s t) (h.single hon)
    rintro s e s' ⟨t, ht⟩ he hnx
    obtain ⟨s'', t', hs'', ht'⟩ := ht.next h.isStop he
    obtain rfl := some.inj (hs''.symm.trans hnx)
    exact ⟨t', ht'⟩
  refine ⟨fun e he => ?_, fun hph hwt => ?_⟩
  · obtain ⟨s', t', hs', -⟩ := hsng.next h.isStop he
    rw [hs']
    exact some_ne_none s'
  · have hme : t ∈ s.proc.threads := by simp [hsng.threads]
    have hsh := hsng.shape
    rw [hph] at hsh
    generalize hsp : s.proc.stopSignal = stop at hsh
    cases hsh with
    | woken hpc haw => exact absurd (hwt t hme hpc) haw
    | out hpc haw =>
      refine ⟨fun u hu => ?_, rfl⟩
      obtain rfl : u = t := by simpa [hsng.threads] using hu
      exact ⟨hpc, haw⟩

structure Scheduled (i : ℕ) (t : Thread) (p p' : Proc) : Prop where
  thread : p'.threads[i]? = some (setActivity .running t)
  others : ∀ j, j ≠ i → p'.threads[j]? = p.threads[j]?
  stopSignal : p'.stopSignal = p.stopSignal
  sigaction : p'.sigaction = p.sigaction
  exited : p'.exited = p.exited

theorem scheduled_modify (ht : p.threads[i]? = some t) :
    Scheduled i t p (p.modifyThread i (setActivity .running)) := by
  refine ⟨by simp [getElem?_modifyThread, ht], fun j hj => ?_, rfl, rfl, rfl⟩
  simp [getElem?_modifyThread, hj]

theorem exists_scheduled (past : ℕ → ℕ) (phase : Phase) (ht : p.threads[i]? = some t)
    (haw : t.activity ≠ .waiting .stop) :
    ∃ p', Reached past ⟨phase, p⟩ ⟨phase, p'⟩ ∧ Scheduled i t p p' := by
  cases hact : t.activity with
  | running =>
    refine ⟨p, .start, ?_, fun _ _ => rfl, rfl, rfl, rfl⟩
    rw [ht, setActivity, ← hact]
  | ready =>
    exact ⟨_, .step .start (e := .thread (.schedule i)) ⟨trivial, t, ht, hact⟩ rfl,
      scheduled_modify ht⟩
  | waiting on =>
    cases on with
    | stop => exact absurd hact haw
    | other =>
      let q := p.modifyThread i (setActivity .ready)
      have hq : q.threads[i]? = some (setActivity .ready t) := by
        simp [q, getElem?_modifyThread, ht]
      have hre : Reached past ⟨phase, p⟩ ⟨phase, q⟩ :=
        .step .start (e := .thread (.wakeUp i)) ⟨trivial, t, ht, hact⟩ rfl
      have hsc := scheduled_modify hq
      refine ⟨_, .step hre (e := .thread (.schedule i)) ⟨trivial, _, hq, rfl⟩ rfl,
        hsc.thread, fun j hj => ?_, rfl, rfl, rfl⟩
      simp [q, getElem?_modifyThread, hj]

theorem exists_stopped (past : ℕ → ℕ) (phase : Phase) (hsp : sig.val + 1 ∈ [19, 20, 21, 22])
    (hdf : Default p sig) (ht : p.threads[i]? = some t) (hpc : t.pc = .outside)
    (haw : t.activity ≠ .waiting .stop) (hch : comIpcSignalCheckNolock t = some sig) :
    ∃ p', Reached past ⟨phase, p⟩ ⟨phase, p'⟩ ∧
      StoppedBy sig i t .stopped (.waiting .stop) p p' := by
  obtain ⟨q, hq, hsc⟩ := exists_scheduled past phase ht haw
  have hqd : Default q sig := by
    unfold Default
    rw [hsc.sigaction]
    exact hdf
  have hr := stoppedBy_dispatch past hsp hqd hsc.thread rfl hch
  obtain ⟨t', ht', hpc', hact', hms', hpn'⟩ := hr.thread
  have hdp : Reached past ⟨phase, p⟩ ⟨phase, (comIpcSignalDispatch past q i).2⟩ :=
    .step hq (e := .thread (.dispatch i)) ⟨trivial, _, hsc.thread, rfl, hpc⟩ rfl
  refine ⟨_, .step hdp (e := .thread (.join i)) ⟨trivial, t', ht', hact', hpc'⟩ rfl, ?_⟩
  refine ⟨⟨{ t' with activity := .waiting .stop, pc := .stopped }, ?_, rfl, rfl, hms', hpn'⟩,
    fun j hj => ?_, ?_, ?_, ?_⟩
  · simp [getElem?_modifyThread, ht']
  · rw [getElem?_modifyThread]
    simp only [hj, if_false, Option.map_id']
    rw [hr.others j hj, hsc.others j hj, hsc.stopSignal]
  · exact hr.stopSignal.trans (by rw [hsc.stopSignal])
  · exact hr.sigaction.trans hsc.sigaction
  · exact hr.exited.trans hsc.exited

def SameThreads (p p' : Proc) : Prop :=
  ∀ j : ℕ, (p'.threads[j]?).isSome = (p.threads[j]?).isSome

theorem SameThreads.length_eq (h : SameThreads p p') : p'.threads.length = p.threads.length := by
  have hlt : ∀ j, j < p'.threads.length ↔ j < p.threads.length := by
    intro j
    have hj := h j
    rw [Bool.eq_iff_iff] at hj
    simpa only [isSome_iff_ne_none, ne_eq, getElem?_eq_none_iff, not_le] using hj
  have := hlt p.threads.length
  have := hlt p'.threads.length
  omega

structure Halted (sig : Signal) (k : ℕ) (p : Proc) : Prop where
  live : p.exited = false
  default_stop : Default p sig
  stopSignal : p.stopSignal = some sig
  cont : ∀ t ∈ p.threads, ¬ Has t.pending SIGCONT ∧ ¬ Has t.masked SIGCONT
  waiting : ∀ (j : ℕ) (t : Thread), p.threads[j]? = some t → j < k →
    t.pc = .stopped ∧ t.activity = .waiting .stop
  rest : ∀ (j : ℕ) (t : Thread), p.threads[j]? = some t → k ≤ j →
    t.pc = .outside ∧ t.activity ≠ .waiting .stop ∧ comIpcSignalCheckNolock t = some sig

theorem Halted.succ {k : ℕ} (past : ℕ → ℕ) (h : Halted sig k p)
    (hsp : sig.val + 1 ∈ [19, 20, 21, 22]) (ht : p.threads[k]? = some t) :
    ∃ p', Reached past ⟨.stopping, p⟩ ⟨.stopping, p'⟩ ∧ Halted sig (k + 1) p' ∧
      SameThreads p p' := by
  obtain ⟨hpc, haw, hch⟩ := h.rest k t ht le_rfl
  obtain ⟨p', hre, hst⟩ :=
    exists_stopped past .stopping hsp h.default_stop ht hpc haw hch
  obtain ⟨t', ht', hpc', hact', hms', hpn'⟩ := hst.thread
  have hot : ∀ j, j ≠ k → p'.threads[j]? = p.threads[j]? := by
    intro j hj
    rw [hst.others j hj, h.stopSignal]
    simp
  refine ⟨p', hre, ⟨hst.exited.trans h.live, ?_, ?_, ?_, ?_, ?_⟩, fun j => ?_⟩
  · unfold Default
    rw [hst.sigaction]
    exact h.default_stop
  · rw [hst.stopSignal, h.stopSignal]
    rfl
  · intro u hu
    obtain ⟨j, hj⟩ := mem_iff_getElem?.mp hu
    by_cases hjk : j = k
    · obtain rfl : t' = u := by
        rw [hjk, ht'] at hj
        exact some.inj hj
      have hcn := h.cont t (mem_of_getElem? ht)
      exact ⟨fun hhs => hcn.1 ((hpn' SIGCONT).mp hhs).2, hms' ▸ hcn.2⟩
    · rw [hot j hjk] at hj
      exact h.cont u (mem_of_getElem? hj)
  · intro j u hu hj
    by_cases hjk : j = k
    · obtain rfl : t' = u := by
        rw [hjk, ht'] at hu
        exact some.inj hu
      exact ⟨hpc', hact'⟩
    · rw [hot j hjk] at hu
      exact h.waiting j u hu (by omega)
  · intro j u hu hj
    rw [hot j (by omega)] at hu
    exact h.rest j u hu (by omega)
  · by_cases hjk : j = k
    · rw [hjk, ht', ht]
      rfl
    · rw [hot j hjk]

theorem Halted.all {k : ℕ} (past : ℕ → ℕ) (h : Halted sig k p)
    (hsp : sig.val + 1 ∈ [19, 20, 21, 22]) :
    ∃ p', Reached past ⟨.stopping, p⟩ ⟨.stopping, p'⟩ ∧ Halted sig p.threads.length p' ∧
      SameThreads p p' := by
  induction hd : p.threads.length - k generalizing k p with
  | zero =>
    refine ⟨p, .start, ⟨h.live, h.default_stop, h.stopSignal, h.cont, ?_, ?_⟩, fun _ => rfl⟩
    · intro j t ht hj
      exact h.waiting j t ht (by omega)
    · intro j t ht hj
      have := (List.getElem?_eq_some_iff.mp ht).1
      omega
  | succ d ih =>
    have hk : k < p.threads.length := by omega
    obtain ⟨q, hq, hhl, hsm⟩ := h.succ past hsp (List.getElem?_eq_getElem hk)
    have hln := hsm.length_eq
    obtain ⟨p', hp', hal, hsm'⟩ := ih hhl (by omega)
    rw [hln] at hal
    exact ⟨p', hq.trans hp', hal, fun j => (hsm' j).trans (hsm j)⟩

theorem Setup.halted (past : ℕ → ℕ) (h : Setup p sig) :
    ∃ p', Reached past ⟨.stopping, comIpcSignalSendToProc p sig⟩ ⟨.stopping, p'⟩ ∧
      Halted sig 1 p' ∧ SameThreads p p' := by
  obtain ⟨t, ts, hts⟩ := exists_cons_of_ne_nil h.inhabited
  have hqt := h.threads t (by simp [hts])
  have hac : Accepts none sig t := ⟨hqt.stop_unmasked, .inl rfl⟩
  have hsn : comIpcSignalSendToProc p sig = { p with threads := sendToThread none sig t :: ts } := by
    simp [comIpcSignalSendToProc, h.valid, sendToProc, h.live, h.unstopped, hts, sendLoop, hac]
  have hch : ∀ u : Thread, ¬ Has u.masked sig → (∀ s, ¬ Deliverable u s) → ∀ stop,
      comIpcSignalCheckNolock (sendToThread stop sig u) = some sig := by
    intro u hms hnt stop
    refine check_eq_some.mpr ⟨⟨by simp, by simpa using hms⟩, fun low hlw hhs => ?_⟩
    exact hnt low (by simpa [Deliverable, hlw.ne] using hhs)
  rw [hsn]
  have haw : (sendToThread none sig t).activity ≠ .waiting .stop := by
    rcases activity_of_accepts hac with hact | hact <;> simp [hact]
  obtain ⟨p', hre, hst⟩ := exists_stopped past .stopping h.isStop
    (p := { p with threads := sendToThread none sig t :: ts }) (i := 0) h.default_stop rfl
    (by simpa using hqt.outside) haw
    (hch t hqt.stop_unmasked hqt.nothing none)
  obtain ⟨t', ht', hpc', hact', hms', hpn'⟩ := hst.thread
  have hot : ∀ j, j ≠ 0 → p'.threads[j]? =
      (p.threads[j]?).map (sendToThread (some sig) sig) := by
    intro j hj
    obtain ⟨k, rfl⟩ := Nat.exists_eq_succ_of_ne_zero hj
    rw [hst.others _ hj, hts]
    simp [h.unstopped]
  have hcn : ∀ u ∈ p.threads, ¬ Has u.pending SIGCONT := fun u hu hhs =>
    (h.threads u hu).nothing SIGCONT ⟨hhs, (h.threads u hu).cont_unmasked⟩
  refine ⟨p', hre, ⟨hst.exited.trans h.live, ?_, ?_, ?_, ?_, ?_⟩, fun j => ?_⟩
  · unfold Default
    rw [hst.sigaction]
    exact h.default_stop
  · rw [hst.stopSignal]
    simp [h.unstopped]
  · intro u hu
    obtain ⟨j, hj⟩ := mem_iff_getElem?.mp hu
    by_cases hj0 : j = 0
    · obtain rfl : t' = u := by
        rw [hj0, ht'] at hj
        exact some.inj hj
      have hhs := hcn t (by simp [hts])
      refine ⟨fun hc => hhs ?_, ?_⟩
      · simpa [h.ne_cont.symm] using ((hpn' SIGCONT).mp hc).2
      · rw [hms']
        simpa using hqt.cont_unmasked
    · rw [hot j hj0] at hj
      obtain ⟨v, hv, rfl⟩ := map_eq_some_iff.mp hj
      have hme := mem_of_getElem? hv
      exact ⟨by simpa [h.ne_cont.symm] using hcn v hme,
        by simpa using (h.threads v hme).cont_unmasked⟩
  · intro j u hu hj
    obtain rfl : j = 0 := by omega
    obtain rfl : t' = u := some.inj (ht'.symm.trans hu)
    exact ⟨hpc', hact'⟩
  · intro j u hu hj
    rw [hot j (by omega)] at hu
    obtain ⟨v, hv, rfl⟩ := map_eq_some_iff.mp hu
    have hv := h.threads v (mem_of_getElem? hv)
    have hnot : ¬ Accepts (some sig) sig v := by simp [Accepts, h.ne_cont]
    refine ⟨by simpa using hv.outside, ?_, hch v hv.stop_unmasked hv.nothing _⟩
    rw [activity_of_not_accepts hnot]
    exact hv.awake
  · by_cases hj0 : j = 0
    · rw [hj0, ht', hts]
      rfl
    · rw [hot j hj0, isSome_map]

theorem resume_wakes (ht : p.threads[i]? = some t) (hcn : Has t.pending SIGCONT)
    (hsp : p.stopSignal = some sig) :
    ∃ q, resume p i = some q ∧ ∀ j, j ≠ i → q.threads[j]? = (p.threads[j]?).map leaveStop := by
  simp only [resume, ht, hcn, if_true, Proc.modifyThread, hsp]
  refine ⟨_, rfl, fun j hj => ?_⟩
  simp [hj.symm]

theorem resume_of_not_has (ht : p.threads[i]? = some t) (hcn : ¬ Has t.pending SIGCONT) :
    resume p i = none := by
  simp [resume, ht, hcn]

theorem Halted.assertion_fails {u : Thread} {us : List Thread} (past : ℕ → ℕ)
    (h : Halted sig p.threads.length p) (hts : p.threads = t :: u :: us) :
    ∃ s, Reached past ⟨.stopping, p⟩ s ∧ ∃ e, StepEnabled s e ∧ next past s e = none := by
  have hwt : ∀ v ∈ p.threads, v.activity = .waiting .stop ∧ v.pc = .stopped := by
    intro v hv
    obtain ⟨j, hj⟩ := mem_iff_getElem?.mp hv
    exact (h.waiting j v hj (List.getElem?_eq_some_iff.mp hj).1).symm
  obtain ⟨-, htp⟩ := hwt t (by simp [hts])
  obtain ⟨huw, hup⟩ := hwt u (by simp [hts])
  have huc := (h.cont u (by simp [hts])).1
  have hac : Accepts (some sig) SIGCONT t := ⟨(h.cont t (by simp [hts])).2, .inr rfl⟩
  -- `SIGCONT` reaches the first thread only.
  let sent : Proc := { p with threads := sendToThread (some sig) SIGCONT t :: u :: us }
  have hsn : comIpcSignalSendToProc p SIGCONT = sent := by
    have hvl : SIGCONT.val + 1 < 64 := by decide
    simp [sent, comIpcSignalSendToProc, hvl, sendToProc, h.live, h.stopSignal, hts, sendLoop, hac]
  have hsnt : Reached past ⟨.stopping, p⟩ ⟨.continued, sent⟩ :=
    .step .start (e := .sendCont) ⟨rfl, hwt⟩ (by rw [next, hsn])
  have haw : (sendToThread (some sig) SIGCONT t).activity ≠ .waiting .stop := by
    rcases activity_of_accepts hac with hact | hact <;> simp [hact]
  obtain ⟨q, hq, hsc⟩ := exists_scheduled past .continued (p := sent) (i := 0) rfl haw
  -- It goes on, and the second thread is woken by it.
  obtain ⟨q', hrm, hot⟩ := resume_wakes hsc.thread (by simp [setActivity])
    (hsc.stopSignal.trans h.stopSignal)
  have hq' : Reached past ⟨.stopping, p⟩ ⟨.continued, q'⟩ :=
    .step (hsnt.trans hq) (e := .thread (.resume 0))
      ⟨trivial, _, hsc.thread, rfl, by simpa [setActivity] using htp⟩
      (by simp [next, SignalSteps.next, hrm])
  have hu : q'.threads[1]? = some (leaveStop u) := by
    rw [hot 1 Nat.one_ne_zero, hsc.others 1 Nat.one_ne_zero]
    rfl
  have hlv : leaveStop u = { u with activity := .ready } := by simp [leaveStop, huw]
  rw [hlv] at hu
  obtain ⟨r, hr, hsc'⟩ := exists_scheduled past .continued hu (by simp)
  refine ⟨_, hq'.trans hr, .thread (.resume 1), ⟨trivial, _, hsc'.thread, rfl, hup⟩, ?_⟩
  simp only [next, SignalSteps.next, resume_of_not_has hsc'.thread huc, map_none]

/-- A stop followed by `SIGCONT` goes well exactly for a process of one thread. -/
theorem stopsAndContinues_iff (past : ℕ → ℕ) (p : Proc) (sig : Signal) (h : Setup p sig) :
    StopsAndContinues past p sig ↔ p.threads.length = 1 := by
  refine ⟨fun hgd => ?_, h.stopsAndContinues⟩
  by_contra hln
  obtain ⟨p₁, hp₁, hhl, hsm₁⟩ := h.halted past
  obtain ⟨p₂, hp₂, hal, hsm₂⟩ := hhl.all past h.isStop
  have hln₂ : p₂.threads.length = p.threads.length :=
    hsm₂.length_eq.trans hsm₁.length_eq
  rw [← hsm₂.length_eq] at hal
  have hps := length_pos_iff.mpr h.inhabited
  obtain ⟨t, u, us, hts⟩ : ∃ t u us, p₂.threads = t :: u :: us := by
    match hp : p₂.threads with
    | [] | [_] => simp only [hp, length_cons, length_nil] at hln₂; omega
    | t :: u :: us => exact ⟨t, u, us, rfl⟩
  obtain ⟨s, hs, e, he, hno⟩ := hal.assertion_fails past hts
  exact (hgd s ((hp₁.trans hp₂).trans hs)).1 e he hno

def running (n : ℕ) : Proc where
  threads := replicate n ⟨0, 0, .running, .outside⟩
  pending := 0
  sigaction _ := none
  stopSignal := none
  exited := false

def SIGSTOP : Signal := ofNumber 19

theorem stopsAndContinues_one_thread : StopsAndContinues (fun _ => 0) (running 1) SIGSTOP := by
  have hqt : ∀ t ∈ (running 1).threads, Quiet SIGSTOP t := by
    intro t ht
    obtain rfl := mem_singleton.mp ht
    exact ⟨rfl, by decide, by decide, by decide, fun s hs => has_zero hs.1⟩
  exact (stopsAndContinues_iff _ (running 1) SIGSTOP
    ⟨rfl, rfl, by decide, by decide, by decide, hqt, by decide⟩).mpr rfl

/-- The second of two threads fails the assertion that `SIGCONT` is pending. -/
theorem second_thread_fails :
    ∃ s, Reached (fun _ => 0) ⟨.stopping, comIpcSignalSendToProc (running 2) SIGSTOP⟩ s ∧
      StepEnabled s (.thread (.resume 1)) ∧
      next (fun _ => 0) s (.thread (.resume 1)) = none := by
  have hrn : ∃ s, Runs.run (next fun _ => 0) StepEnabled
      ⟨.stopping, comIpcSignalSendToProc (running 2) SIGSTOP⟩
      [.thread (.dispatch 0), .thread (.join 0), .thread (.dispatch 1), .thread (.join 1), .sendCont,
        .thread (.schedule 0), .thread (.resume 0), .thread (.schedule 1)] = some s ∧
      StepEnabled s (.thread (.resume 1)) ∧
      next (fun _ => 0) s (.thread (.resume 1)) = none :=
    ⟨_, rfl, ⟨trivial, _, rfl, rfl, rfl⟩, rfl⟩
  obtain ⟨s, hrn, hfl⟩ := hrn
  exact ⟨s, Runs.run_reaches hrn, hfl⟩

end SignalStop
