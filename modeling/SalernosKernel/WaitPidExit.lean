import SalernosKernel.WaitPid

/-! # Waiting while the child exits

The sections under the locks of a thread in `waitpid_proc` and of the process it waits for in
`com_sys_proc_exit`. -/
namespace WaitPidExit

open ProcessTable hiding State
open Signals (Proc SIGCHLD comIpcSignalSendToProc NoneBefore Accepts)
open WaitPid hiding State Event Enabled next Reached

inductive Waiter where
  | checking
  | leaving
  | locked
  | queued
  | blocked
  | done (r : Round)
  deriving DecidableEq

/-- How far `com_sys_proc_exit` is; it holds `signal_lock` from `marked` to `signalled`. -/
inductive Exit where
  | running
  | marked
  | drained
  | woken
  | signalled
  | finished
  deriving DecidableEq

structure State where
  parent : Proc
  towait : Process
  waiter : Waiter
  exit : Exit
  queue : Bool
  taken : Bool

inductive Event where
  | check
  | lock
  | insert
  | yield
  | run
  | mark (status : ℤ)
  | drain
  | wake
  | signal
  | finish
  deriving DecidableEq

section Model

variable (i : ℕ) (flags : BitVec 32)

def Asleep (p : Proc) : Prop :=
  (p.threads[i]?).map Signals.Thread.activity = some (.waiting .other)
  deriving Decidable

def Takes (p : Proc) : Prop :=
  p.exited = false ∧ NoneBefore p.stopSignal SIGCHLD p.threads i ∧
    ∃ t, p.threads[i]? = some t ∧ Accepts p.stopSignal SIGCHLD t

def Unlocked (s : State) : Prop := s.waiter ≠ .locked ∧ s.waiter ≠ .queued

def Enabled (s : State) : Event → Prop
  | .check => s.waiter = .checking ∧ (s.exit = .running ∨ s.exit = .finished)
  | .lock => s.waiter = .leaving
  | .insert => s.waiter = .locked
  | .yield => s.waiter = .queued
  | .run => s.waiter = .blocked ∧ ¬ Asleep i s.parent
  | .mark _ => s.exit = .running
  | .drain => s.exit = .marked
  | .wake => s.exit = .drained ∧ (s.taken = true → Unlocked s)
  | .signal => s.exit = .woken ∧ (Takes i s.parent → Unlocked s)
  | .finish => s.exit = .signalled

def check (s : State) : State :=
  match s.parent.threads[i]? with
  | none => s
  | some t =>
    match waitpidRound t s.towait flags with
    | (.wait, towait) => { s with towait := towait, waiter := .leaving }
    | (r, towait) => { s with towait := towait, waiter := .done r }

def setActivity (p : Proc) (a : Signals.Activity) : Proc :=
  p.modifyThread i fun t => { t with activity := a }

/-- A thread that `SIGCHLD` wakes is taken off the list. -/
def next (s : State) : Event → State
  | .check => check i flags s
  | .lock => { s with parent := setActivity i s.parent (.waiting .other), waiter := .locked }
  | .insert => { s with waiter := .queued, queue := true }
  | .yield => { s with waiter := .blocked }
  | .run => { s with parent := setActivity i s.parent .running, waiter := .checking }
  | .mark status => { s with
      towait := { s.towait with
        exitStatus := status
        signals := { s.towait.signals with exited := true } }
      exit := .marked }
  | .drain => { s with taken := s.queue, queue := false, exit := .drained }
  | .wake => { s with
      parent := if s.taken then setActivity i s.parent .ready else s.parent
      taken := false
      exit := .woken }
  | .signal =>
    let parent := comIpcSignalSendToProc s.parent SIGCHLD
    { s with parent := parent, queue := s.queue && Asleep i parent, exit := .signalled }
  | .finish => { s with exit := .finished }

structure Start (s : State) : Prop where
  thread : ∃ t, s.parent.threads[i]? = some t ∧ t.activity = .running
  live : s.towait.signals.exited = false
  waiter : s.waiter = .checking
  exit : s.exit = .running
  queue : s.queue = false
  taken : s.taken = false

def Reached (ok : State → Event → Prop) : State → State → Prop :=
  Runs.Reaches (fun s e => some (next i flags s e)) fun s e => Enabled i s e ∧ ok s e

def Lost (s : State) : Prop :=
  s.towait.signals.exited = true ∧ s.exit = .finished ∧ s.waiter = .blocked ∧ Asleep i s.parent

/-- The list has not been emptied yet, or `SIGCHLD` is still to come and wakes the thread. -/
def WakeComing (s : State) : Prop :=
  s.exit = .running ∨ s.exit = .marked ∨
    (s.exit = .drained ∨ s.exit = .woken) ∧ Takes i s.parent

/-- The thread joins the list only when it will be woken. -/
def JoinsInTime (s : State) (e : Event) : Prop := e = .insert → WakeComing i s

end Model

variable {i : ℕ} {flags : BitVec 32} {s s' s₀ : State} {p : Proc} {a : Signals.Activity}
  {e : Event} {ok : State → Event → Prop}

theorem asleep_setActivity (h : (p.threads[i]?).isSome) :
    Asleep i (setActivity i p a) ↔ a = .waiting .other := by
  obtain ⟨t, ht⟩ := Option.isSome_iff_exists.mp h
  simp [Asleep, setActivity, Signals.getElem?_modifyThread, ht]

theorem isSome_setActivity : ((setActivity i p a).threads[i]?).isSome ↔ (p.threads[i]?).isSome := by
  simp [setActivity, Signals.getElem?_modifyThread]

theorem send_thread (hlv : p.exited = false) : (comIpcSignalSendToProc p SIGCHLD).threads =
      (Signals.sendLoop p.stopSignal SIGCHLD p.threads).1 := by
  have hvl : SIGCHLD.val + 1 < 64 := by decide
  simp [comIpcSignalSendToProc, Signals.sendToProc, hvl, hlv]

theorem not_asleep_of_takes (h : Takes i p) : ¬ Asleep i (comIpcSignalSendToProc p SIGCHLD) := by
  obtain ⟨hlv, hbf, t, ht, hac⟩ := h
  rw [Asleep, send_thread hlv, Signals.sendLoop_of_noneBefore hbf, ht]
  rcases Signals.activity_of_accepts hac with hat | hat <;> simp [hat]

theorem asleep_of_not_takes (h : ¬ Takes i p) :
    Asleep i (comIpcSignalSendToProc p SIGCHLD) ↔ Asleep i p := by
  by_cases hlv : p.exited = false
  · by_cases hbf : NoneBefore p.stopSignal SIGCHLD p.threads i
    · rw [Asleep, send_thread hlv, Signals.sendLoop_of_noneBefore hbf, Asleep]
      cases ht : p.threads[i]? with
      | none => simp
      | some t =>
        have hrj : ¬ Accepts p.stopSignal SIGCHLD t := fun hac =>
          h ⟨hlv, hbf, t, ht, hac⟩
        simp [Signals.activity_of_not_accepts hrj]
    · rw [Asleep, send_thread hlv, Signals.sendLoop_of_not_noneBefore hbf, Asleep]
  · have hei : p.exited = true := by simpa using hlv
    simp [comIpcSignalSendToProc, Signals.sendToProc, hei]

theorem isSome_send : ((comIpcSignalSendToProc p SIGCHLD).threads[i]?).isSome ↔
      (p.threads[i]?).isSome := by
  by_cases hlv : p.exited = false
  · rw [send_thread hlv]
    by_cases hbf : NoneBefore p.stopSignal SIGCHLD p.threads i
    · rw [Signals.sendLoop_of_noneBefore hbf, Option.isSome_map]
    · rw [Signals.sendLoop_of_not_noneBefore hbf]
  · have hei : p.exited = true := by simpa using hlv
    simp [comIpcSignalSendToProc, Signals.sendToProc, hei]

structure Base (i : ℕ) (s : State) : Prop where
  thread : (s.parent.threads[i]?).isSome
  exited : s.towait.signals.exited = true ↔ s.exit ≠ .running
  locked : s.waiter = .locked ∨ s.waiter = .queued → Asleep i s.parent
  listed : s.queue = true ∨ s.taken = true →
    (s.waiter = .queued ∨ s.waiter = .blocked) ∧ Asleep i s.parent
  taken : s.taken = true → s.exit = .drained ∧ s.queue = false

theorem Start.base (h : Start i s) : Base i s := by
  obtain ⟨t, ht, -⟩ := h.thread
  exact ⟨by simp [ht], by simp [h.live, h.exit], by simp [h.waiter], by simp [h.queue, h.taken],
    by simp [h.taken]⟩

theorem check_cases (flags : BitVec 32) (h : (s.parent.threads[i]?).isSome) :
    ∃ towait, towait.signals = s.towait.signals ∧
      ((check i flags s = { s with towait := towait, waiter := .leaving } ∧
          s.towait.signals.exited = false) ∨
        ∃ r, check i flags s = { s with towait := towait, waiter := .done r }) := by
  obtain ⟨t, ht⟩ := Option.isSome_iff_exists.mp h
  have hfd := found_round t s.towait flags
  simp only [check, ht]
  revert hfd
  generalize waitpidRound t s.towait flags = r
  obtain ⟨r, towait⟩ := r
  intro hfd
  cases hfd with
  | interrupted | exited status | nohang => exact ⟨_, rfl, .inr ⟨_, rfl⟩⟩
  | stopped status => exact ⟨{ s.towait with stopNotified := true }, rfl, .inr ⟨_, rfl⟩⟩
  | wait hlv => exact ⟨_, rfl, .inl ⟨rfl, hlv⟩⟩

theorem Base.unlisted (h : Base i s)
    (hnt : ¬ ((s.waiter = .queued ∨ s.waiter = .blocked) ∧ Asleep i s.parent)) :
    s.queue = false ∧ s.taken = false := by
  constructor
  · by_contra hqu
    exact hnt (h.listed (.inl (by simpa using hqu)))
  · by_contra htk
    exact hnt (h.listed (.inr (by simpa using htk)))

theorem Base.step (h : Base i s) (he : Enabled i s e) : Base i (next i flags s e) := by
  have hth := h.thread
  cases e with
  | check =>
    obtain ⟨hwt, -⟩ := he
    obtain ⟨hqu, htk⟩ := h.unlisted (by simp [hwt])
    obtain ⟨towait, hsg, ⟨hch, -⟩ | ⟨r, hch⟩⟩ := check_cases flags hth
    · rw [next, hch]
      exact ⟨hth, by simpa [hsg] using h.exited, by simp, by simp [hqu, htk],
        by simp [htk]⟩
    · rw [next, hch]
      exact ⟨hth, by simpa [hsg] using h.exited, by simp, by simp [hqu, htk],
        by simp [htk]⟩
  | lock =>
    have hwt : s.waiter = .leaving := he
    obtain ⟨hqu, htk⟩ := h.unlisted (by simp [hwt])
    exact ⟨isSome_setActivity.mpr hth, h.exited,
      fun _ => (asleep_setActivity hth).mpr rfl, by simp [next, hqu, htk],
      by simp [next, htk]⟩
  | insert =>
    have hwt : s.waiter = .locked := he
    have hal := h.locked (.inl hwt)
    obtain ⟨-, htk⟩ := h.unlisted (by simp [hwt])
    exact ⟨hth, h.exited, fun _ => hal, fun _ => ⟨.inl rfl, hal⟩,
      by simp [next, htk]⟩
  | yield =>
    exact ⟨hth, h.exited, by simp [next],
      fun hls => ⟨.inr rfl, (h.listed hls).2⟩, h.taken⟩
  | run =>
    obtain ⟨-, haw⟩ := he
    obtain ⟨hqu, htk⟩ := h.unlisted fun hls => haw hls.2
    exact ⟨isSome_setActivity.mpr hth, h.exited, by simp [next],
      by simp [next, hqu, htk], by simp [next, htk]⟩
  | mark status =>
    have het : s.exit = .running := he
    exact ⟨hth, by simp [next], h.locked, h.listed,
      fun htk => absurd (h.taken htk).1 (by simp [het])⟩
  | drain =>
    have het : s.exit = .marked := he
    exact ⟨hth, by simpa [next, het] using h.exited, h.locked,
      fun hls => h.listed (.inl (by simpa [next] using hls)),
      fun _ => ⟨rfl, rfl⟩⟩
  | wake =>
    obtain ⟨het, hun⟩ := he
    have hei := h.exited
    by_cases htk : s.taken = true
    · have hqu := (h.taken htk).2
      obtain ⟨hlc, hqd⟩ := hun htk
      refine ⟨?_, by simpa [next, het] using hei,
        fun hw => (hw.elim hlc hqd).elim, by simp [next, hqu],
        by simp [next]⟩
      simpa [next, htk] using isSome_setActivity.mpr hth
    · refine ⟨by simpa [next, htk] using hth,
        by simpa [next, het] using hei,
        by simpa [next, htk] using h.locked, fun hls => ?_,
        by simp [next]⟩
      simpa [next, htk] using h.listed (.inl (by simpa [next] using hls))
  | signal =>
    obtain ⟨het, hun⟩ := he
    have hei := h.exited
    refine ⟨isSome_send.mpr hth, by simpa [next, het] using hei, fun hw => ?_,
      fun hls => ?_, fun htk => absurd (h.taken htk).1 (by simp [het])⟩
    · have hrj : ¬ Takes i s.parent := fun hts =>
        hw.elim (hun hts).1 (hun hts).2
      exact (asleep_of_not_takes hrj).mpr (h.locked hw)
    · rcases hls with hqu | htk
      · simp only [next, Bool.and_eq_true, decide_eq_true_eq] at hqu
        exact ⟨(h.listed (.inl hqu.1)).1, hqu.2⟩
      · exact absurd (h.taken htk).1 (by simp [het])
  | finish =>
    have het : s.exit = .signalled := he
    exact ⟨hth, by simpa [next, het] using h.exited, h.locked, h.listed,
      fun htk => absurd (h.taken htk).1 (by simp [het])⟩

def Coming (i : ℕ) (s : State) : Prop :=
  (s.exit = .running ∨ s.exit = .marked) ∧ s.queue = true ∨ s.exit = .drained ∧ s.taken = true ∨
    (s.exit = .drained ∨ s.exit = .woken) ∧ Takes i s.parent

structure Safe (i : ℕ) (s : State) : Prop where
  joined : s.waiter ≠ .leaving ∧ s.waiter ≠ .locked
  checking : s.waiter = .checking → s.exit ≠ .running
  asleep : s.waiter = .queued ∨ s.waiter = .blocked → Asleep i s.parent → Coming i s
  awake : s.waiter = .blocked → ¬ Asleep i s.parent → s.exit ≠ .running ∧ s.exit ≠ .marked

theorem Safe.not_lost (h : Safe i s) : ¬ Lost i s := by
  rintro ⟨-, het, hwt, hal⟩
  have hcm := h.asleep (.inr hwt) hal
  simp [Coming, het] at hcm

theorem WakeComing.insert (hcm : WakeComing i s) : Safe i (next i flags s .insert) := by
  refine ⟨by simp [next], by simp [next], fun _ _ => ?_, by simp [next]⟩
  rcases hcm with het | het | hts
  · exact .inl ⟨.inl het, rfl⟩
  · exact .inl ⟨.inr het, rfl⟩
  · exact .inr (.inr hts)

theorem Safe.step (h : Safe i s) (hbs : Base i s) (he : Enabled i s e) :
    Safe i (next i flags s e) := by
  cases e with
  | check =>
    obtain ⟨hwt, het⟩ := he
    have hei := hbs.exited.mpr (h.checking hwt)
    obtain ⟨towait, -, ⟨-, hlv⟩ | ⟨r, hch⟩⟩ := check_cases flags hbs.thread
    · exact absurd (hlv.symm.trans hei) Bool.false_ne_true
    · rw [next, hch]
      exact ⟨by simp, by simp, by simp, by simp⟩
  | lock => exact absurd he h.joined.1
  | insert => exact absurd he h.joined.2
  | yield =>
    have hwt : s.waiter = .queued := he
    have hal := hbs.locked (.inr hwt)
    exact ⟨by simp [next], by simp [next],
      fun _ => h.asleep (.inl hwt), fun _ haw => absurd hal haw⟩
  | run =>
    obtain ⟨hwt, haw⟩ := he
    exact ⟨by simp [next], fun _ => (h.awake hwt haw).1,
      by simp [next], by simp [next]⟩
  | mark status =>
    have het : s.exit = .running := he
    refine ⟨h.joined, by simp [next], fun hw hal => ?_, fun hw haw => ?_⟩
    · have hqu : s.queue = true := by simpa [Coming, het] using h.asleep hw hal
      exact .inl ⟨.inr rfl, hqu⟩
    · exact absurd het (h.awake hw haw).1
  | drain =>
    have het : s.exit = .marked := he
    refine ⟨h.joined, by simp [next], fun hw hal => ?_, by simp [next]⟩
    have hqu : s.queue = true := by simpa [Coming, het] using h.asleep hw hal
    exact .inr (.inl ⟨rfl, hqu⟩)
  | wake =>
    obtain ⟨het, -⟩ := he
    refine ⟨h.joined, by simp [next], fun hw hal => ?_, by simp [next]⟩
    by_cases htk : s.taken = true
    · have haw : ¬ Asleep i (setActivity i s.parent .ready) := by
        simp [asleep_setActivity hbs.thread]
      exact absurd (by simpa [next, htk] using hal) haw
    · have hts : Takes i s.parent := by
        have hcm := h.asleep hw (by simpa [next, htk] using hal)
        simpa [Coming, het, htk] using hcm
      exact .inr (.inr ⟨.inr rfl, by simpa [next, htk] using hts⟩)
  | signal =>
    obtain ⟨het, -⟩ := he
    refine ⟨h.joined, by simp [next], fun hw hal => ?_, by simp [next]⟩
    by_cases hts : Takes i s.parent
    · exact absurd hal (not_asleep_of_takes hts)
    · have hcm := h.asleep hw ((asleep_of_not_takes hts).mp hal)
      simp [Coming, het, hts] at hcm
  | finish =>
    have het : s.exit = .signalled := he
    refine ⟨h.joined, by simp [next], fun hw hal => ?_, by simp [next]⟩
    have hcm := h.asleep hw hal
    simp [Coming, het] at hcm

theorem Reached.base (h : Reached i flags ok s s') (hs : Base i s) : Base i s' :=
  Runs.Reaches.invariant h (Base i) hs fun _ _ _ hb he hn => Option.some.inj hn ▸ hb.step he.1

theorem Reached.safe (h : Reached i flags ok s s') (hs : Safe i s) (hbs : Base i s) :
    Safe i s' := by
  have hbt : Safe i s' ∧ Base i s' := by
    refine Runs.Reaches.invariant h (fun s => Safe i s ∧ Base i s) ⟨hs, hbs⟩ ?_
    rintro s e _ ⟨hsf, hbs⟩ ⟨he, -⟩ hn
    cases hn
    exact ⟨hsf.step hbs he, hbs.step he⟩
  exact hbt.1

def Early (s : State) : Prop := s.waiter ≠ .queued ∧ s.waiter ≠ .blocked

theorem Reached.early_or_safe (h₀ : Start i s₀) (h : Reached i flags (JoinsInTime i) s₀ s) :
    Early s ∨ Safe i s := by
  have hall : (Early s ∨ Safe i s) ∧ Base i s := by
    refine Runs.Reaches.invariant h (fun s => (Early s ∨ Safe i s) ∧ Base i s)
      ⟨.inl (by simp [Early, h₀.waiter]), h₀.base⟩ ?_
    rintro s e _ ⟨her | hsf, hbs⟩ ⟨he, hok⟩ hn <;> cases hn
    · refine ⟨?_, hbs.step he⟩
      cases e with
      | insert => exact .inr (hok rfl).insert
      | check =>
        obtain ⟨towait, -, ⟨hch, -⟩ | ⟨r, hch⟩⟩ := check_cases flags hbs.thread
        · exact .inl (by simp [next, hch, Early])
        · exact .inl (by simp [next, hch, Early])
      | yield => exact absurd he her.1
      | lock | run => exact .inl (by simp [next, Early])
      | mark | drain | wake | signal | finish => exact .inl her
    · exact ⟨.inr (hsf.step hbs he), hbs.step he⟩
  exact hall.1

structure Stuck (i : ℕ) (s : State) : Prop where
  waiter : s.waiter = .blocked
  asleep : Asleep i s.parent
  exited : s.towait.signals.exited = true
  taken : s.taken = false
  late : ¬ WakeComing i s

theorem Stuck.lost (h : Stuck i s) (flags : BitVec 32) :
    ∃ s', Reached i flags (fun _ _ => True) s s' ∧ Lost i s' := by
  have hst : ∀ {s e}, Enabled i s e →
      (∃ s', Reached i flags (fun _ _ => True) (next i flags s e) s' ∧ Lost i s') →
      ∃ s', Reached i flags (fun _ _ => True) s s' ∧ Lost i s' := by
    rintro s e he ⟨s', hs', hlst⟩
    exact ⟨s', Runs.Reaches.trans (.step .start ⟨he, trivial⟩ rfl) hs', hlst⟩
  -- From the end of the exit backwards.
  have hfn : ∀ {s}, Stuck i s → s.exit = .finished →
      ∃ s', Reached i flags (fun _ _ => True) s s' ∧ Lost i s' := fun {s} h het =>
    ⟨s, .start, h.exited, het, h.waiter, h.asleep⟩
  have hsn : ∀ {s}, Stuck i s → s.exit = .signalled →
      ∃ s', Reached i flags (fun _ _ => True) s s' ∧ Lost i s' := fun {s} h het =>
    hst (e := .finish) het (hfn ⟨h.waiter, h.asleep, h.exited, h.taken,
      by simp [WakeComing, next]⟩ rfl)
  have hwk : ∀ {s}, Stuck i s → s.exit = .woken →
      ∃ s', Reached i flags (fun _ _ => True) s s' ∧ Lost i s' := by
    intro s h het
    have hrj : ¬ Takes i s.parent := fun hts => h.late (.inr (.inr ⟨.inr het, hts⟩))
    refine hst (e := .signal) ⟨het, fun hts => absurd hts hrj⟩
      (hsn ⟨h.waiter, (asleep_of_not_takes hrj).mpr h.asleep, h.exited, h.taken,
        by simp [WakeComing, next]⟩ rfl)
  cases het : s.exit with
  | running => exact absurd (.inl het) h.late
  | marked => exact absurd (.inr (.inl het)) h.late
  | drained =>
    have hrj : ¬ Takes i s.parent := fun hts => h.late (.inr (.inr ⟨.inl het, hts⟩))
    refine hst (e := .wake) ⟨het, by simp [h.taken]⟩ (hwk ⟨h.waiter, ?_, h.exited, rfl, ?_⟩ rfl)
    · simpa [next, h.taken] using h.asleep
    · simpa [WakeComing, next, h.taken] using hrj
  | woken => exact hwk h het
  | signalled => exact hsn h het
  | finished => exact hfn h het

theorem Base.late (h : Base i s) (hwt : s.waiter = .locked) (hlt : ¬ WakeComing i s) :
    ∃ s', Reached i flags (fun _ _ => True) (next i flags s .insert) s' ∧ Lost i s' := by
  have htk : s.taken = false := by
    by_contra hne
    have hw := (h.listed (.inr (by simpa using hne))).1
    simp [hwt] at hw
  have hei : s.towait.signals.exited = true :=
    h.exited.mpr fun het => hlt (.inl het)
  let queued := next i flags s .insert
  have hsc : Stuck i (next i flags queued .yield) :=
    ⟨rfl, h.locked (.inl hwt), hei, htk, hlt⟩
  obtain ⟨s', hs', hlst⟩ := hsc.lost flags
  exact ⟨s', Runs.Reaches.trans (.step .start (e := .yield) ⟨rfl, trivial⟩ rfl) hs', hlst⟩

/-- The notification is lost exactly if the thread joins the list when nothing is left to wake
it. -/
theorem no_lost_notification (i : ℕ) (flags : BitVec 32) (s₀ : State) (h₀ : Start i s₀) :
    (∀ s, Reached i flags (JoinsInTime i) s₀ s → ¬ Lost i s) ∧
    ∀ s, Reached i flags (fun _ _ => True) s₀ s → Enabled i s .insert →
      ((∀ s', Reached i flags (fun _ _ => True) (next i flags s .insert) s' → ¬ Lost i s') ↔
        WakeComing i s) := by
  refine ⟨fun s hs => ?_, fun s hs he => ⟨fun hnv => ?_, fun hcm s' hs' => ?_⟩⟩
  · rcases Reached.early_or_safe h₀ hs with her | hsf
    · exact fun hlst => her.2 hlst.2.2.1
    · exact hsf.not_lost
  · by_contra hlt
    obtain ⟨s', hs', hlst⟩ := (Reached.base hs h₀.base).late he hlt
    exact hnv s' hs' hlst
  · have hbs := Reached.base hs h₀.base
    exact (Reached.safe hs' hcm.insert (hbs.step he)).not_lost

def waiting : State where
  parent := ⟨[⟨0, 0, .running, .outside⟩], 0, fun _ => none, none, false⟩
  towait := { Process.new 1 fun _ => none with numRef := 3 }
  waiter := .checking
  exit := .running
  queue := false
  taken := false

theorem no_lost_notification_waiting : Start 0 waiting ∧
    ∀ s, Reached 0 0 (JoinsInTime 0) waiting s → ¬ Lost 0 s := by
  have hsa : Start 0 waiting := ⟨⟨_, rfl, rfl⟩, rfl, rfl, rfl, rfl, rfl⟩
  exact ⟨hsa, (no_lost_notification 0 0 waiting hsa).1⟩

/-- The whole exit takes place after the check and before the thread joins the list. -/
theorem notification_lost : Start 0 waiting ∧
    ∃ s, Reached 0 0 (fun _ _ => True) waiting s ∧ Lost 0 s := by
  refine ⟨⟨⟨_, rfl, rfl⟩, rfl, rfl, rfl, rfl, rfl⟩, _,
    .step (.step (.step (.step (.step (.step (.step (.step (.step .start
      (e := .check) ⟨⟨rfl, .inl rfl⟩, trivial⟩ rfl)
      (e := .mark 0) ⟨rfl, trivial⟩ rfl)
      (e := .drain) ⟨rfl, trivial⟩ rfl)
      (e := .wake) ⟨⟨rfl, fun _ => ⟨by decide, by decide⟩⟩, trivial⟩ rfl)
      (e := .signal) ⟨⟨rfl, fun _ => ⟨by decide, by decide⟩⟩, trivial⟩ rfl)
      (e := .finish) ⟨rfl, trivial⟩ rfl)
      (e := .lock) ⟨rfl, trivial⟩ rfl)
      (e := .insert) ⟨rfl, trivial⟩ rfl)
      (e := .yield) ⟨rfl, trivial⟩ rfl, rfl, rfl, rfl, rfl⟩

end WaitPidExit
