import SalernosKernel.RingBuffer

/-! # End of file on a terminal

A blocking `kringbuffer_read` of `slave_rb` beside `com_io_tty_process_char` with `VEOF` on an empty
line, which sets `is_eof` without the lock of the buffer and then writes no bytes under it. -/
namespace TtyEndOfFile

open RingBuffer

inductive Processor where
  | receiving
  | flagged
  | finished (ret : Ret)
  deriving DecidableEq

structure State where
  rb : Ring
  reader : Call
  /-- The reader is on `read.queue`, and has left the lock. -/
  queued : Bool
  woken : Bool
  processor : Processor

inductive Event where
  | test
  | sleep
  | interrupt
  | resume (signal : Bool)
  | flag
  | write (blocking : Bool)
  deriving DecidableEq

def KRINGBUFFER_NOATOMIC : ℕ := 1

def start (rb : Ring) (nbytes : ℕ) : State := ⟨rb, .reading nbytes true, false, false, .receiving⟩

/-- The reader holds the lock from a test that fails until it sleeps. -/
def State.locked (s : State) : Bool :=
  match s.reader with
  | .readWaiting _ => !s.queued && !s.woken
  | _ => false

def notify (s : State) : State :=
  if s.queued then { s with queued := false, woken := true } else s

def writeNothing (s : State) (blocking : Bool) : Option State :=
  match enter KRINGBUFFER_NOATOMIC s.rb (.write [] blocking) with
  | some (.returned ret _ _) => some { s with processor := .finished ret }
  | some call =>
    match step KRINGBUFFER_NOATOMIC s.rb noHangup call with
    | some (rb, .returned ret _ _, notified) =>
      let s := { s with rb := rb, processor := .finished ret }
      some (if notified then notify s else s)
    | _ => none
  | none => none

def next (s : State) : Event → Option State
  | .test =>
    match s.reader with
    | .reading .. =>
      (step KRINGBUFFER_NOATOMIC s.rb noHangup s.reader).map fun r =>
        { s with rb := r.1, reader := r.2.1 }
    | _ => none
  | .sleep => if s.locked then some { s with queued := true } else none
  | .interrupt => if s.queued then some (notify s) else none
  | .resume signal =>
    match s.reader, s.woken with
    | .readWaiting _, true =>
      (wake KRINGBUFFER_NOATOMIC s.rb signal noHangup s.reader).map fun r =>
        { s with rb := r.1, reader := r.2.1, woken := false }
    | _, _ => none
  | .flag =>
    if s.processor = .receiving then
      some { s with rb := { s.rb with isEof := true }, processor := .flagged }
    else none
  | .write blocking =>
    if s.processor = .flagged ∧ s.locked = false then writeNothing s blocking else none

def Lost (s : State) : Prop :=
  s.rb.isEof ∧ (∃ ret, s.processor = .finished ret) ∧ (∃ n, s.reader = .readWaiting n) ∧ s.queued

/-- The reader is not behind a test that failed. -/
def Awake (s : State) : Prop := ∀ n, s.reader ≠ .readWaiting n

def Told (s : State) : Prop :=
  s.processor ≠ .receiving →
    Awake s ∧ ∀ n blocking, s.reader = .reading n blocking → s.rb.isEof = true

variable {s s' : State}

theorem writeNothing_eq {blocking : Bool} (h : writeNothing s blocking = some s') :
    ∃ ret, s' = { s with processor := .finished ret } := by
  cases blocking with
  | true =>
    simp only [writeNothing, enter, if_true, writeTop] at h
    split_ifs at h
    exact ⟨.ok, (Option.some.inj h).symm⟩
  | false =>
    simp only [writeNothing, enter, Bool.false_eq_true, if_false] at h
    split_ifs at h
    exact ⟨.EAGAIN, (Option.some.inj h).symm⟩

theorem test_eof {n : ℕ} {blocking : Bool} (hef : s.rb.isEof = true)
    (hr : s.reader = .reading n blocking) (h : next s .test = some s') :
    s'.reader = .returned .ok (some 0) [] ∧ s'.rb.isEof = false := by
  have hno : ¬ noHangup.Ends := by decide
  simp only [next, hr, step, if_neg hno] at h
  split_ifs at h
  · simp only [readTest, readEnd, hef, not_true_eq_false, and_false, if_false, if_true,
      Option.map_some, Option.some.injEq] at h
    rw [← h]
    exact ⟨rfl, rfl⟩
  · cases h

theorem Told.step (ht : Told s) (e : Event) (hok : e = .flag → Awake s)
    (hn : next s e = some s') : Told s' := by
  intro hp
  cases e with
  | test =>
    cases hr : s.reader with
    | reading n blocking =>
      have hs : s'.processor = s.processor := by
        simp only [next, hr] at hn
        obtain ⟨r, -, rfl⟩ := Option.map_eq_some_iff.mp hn
        rfl
      have hef := (ht (hs ▸ hp)).2 n blocking hr
      have hrt := (test_eof hef hr hn).1
      exact ⟨fun n h => by simp [hrt] at h, fun n blocking h => by simp [hrt] at h⟩
    | _ => simp [next, hr] at hn
  | sleep =>
    simp only [next] at hn
    split_ifs at hn
    cases hn
    exact ht hp
  | interrupt =>
    simp only [next, notify] at hn
    split_ifs at hn
    cases hn
    exact ht hp
  | resume signal =>
    simp only [next] at hn
    split at hn
    · rename_i n hr _
      obtain ⟨r, -, rfl⟩ := Option.map_eq_some_iff.mp hn
      exact absurd hr ((ht hp).1 n)
    · cases hn
  | flag =>
    simp only [next] at hn
    split_ifs at hn
    cases hn
    exact ⟨hok rfl, fun _ _ _ => rfl⟩
  | write blocking =>
    simp only [next] at hn
    split_ifs at hn with hc
    obtain ⟨ret, rfl⟩ := writeNothing_eq hn
    exact ht (by rw [hc.1]; simp)

/-- A reader that tests after the flag is set reads the end of the file; one that sleeps before it
is lost. -/
theorem end_of_file_reaches (rb : Ring) (nbytes : ℕ) (s : State) :
    (Runs.Reaches next (fun s e => e = .flag → Awake s) (start rb nbytes) s → ¬ Lost s ∧ ∀ n
      blocking s', s.processor ≠ .receiving → s.reader = .reading n blocking → next s .test = some
      s' → s'.reader = .returned .ok (some 0) []) ∧
      ∀ n blocking s₁ s₂, s.reader = .readWaiting n → s.queued → next s .flag = some s₁ →
        next s₁ (.write blocking) = some s₂ → Lost s₂ := by
  refine ⟨fun h => ?_, ?_⟩
  · have ht : Told s := by
      refine h.invariant Told (fun hp => absurd rfl hp) ?_
      intro s e s' ht hok hn
      exact ht.step e hok hn
    refine ⟨?_, ?_⟩
    · rintro ⟨-, ⟨ret, hp⟩, ⟨n, hr⟩, -⟩
      exact (ht (by rw [hp]; simp)).1 n hr
    · intro n blocking s' hp hr hn
      exact (test_eof ((ht hp).2 n blocking hr) hr hn).1
  · intro n blocking s₁ s₂ hr hq hfl hwrite
    simp only [next] at hfl hwrite
    split_ifs at hfl hwrite
    cases hfl
    obtain ⟨ret, rfl⟩ := writeNothing_eq hwrite
    exact ⟨rfl, ⟨ret, rfl⟩, ⟨n, hr⟩, hq⟩

def empty : Ring := ⟨fun _ => 0, 1024, 0, 0, false⟩

/-- The reader tests after the flag is set. -/
theorem end_of_file_reaches_reader : ∃ s s', next s .test = some s' ∧ ¬ Lost s ∧
    s'.reader = .returned .ok (some 0) [] := by
  have hrun : Runs.Reaches next (fun s e => e = .flag → Awake s) (start empty 10)
      ⟨{ empty with isEof := true }, .reading 10 true, false, false, .flagged⟩ :=
    .step .start (e := .flag) (fun _ n h => by cases h) rfl
  obtain ⟨hlost, hread⟩ := (end_of_file_reaches empty 10 _).1 hrun
  exact ⟨_, _, rfl, hlost, hread 10 true _ (by simp) rfl rfl⟩

/-- The reader sleeps first; the write may block or not. -/
theorem end_of_file_lost : (∃ s, Runs.Reaches next (fun _ _ => True) (start empty 10) s ∧ Lost s ∧
      s.processor = .finished .ok) ∧
    ∃ s, Runs.Reaches next (fun _ _ => True) (start empty 10) s ∧ Lost s ∧
      s.processor = .finished .EAGAIN := by
  have hfl : Runs.Reaches next (fun _ _ => True) (start empty 10)
      ⟨{ empty with isEof := true }, .readWaiting 10, true, false, .flagged⟩ :=
    .step (e := .flag) (.step (e := .sleep) (.step (e := .test) .start trivial rfl) trivial rfl)
      trivial rfl
  exact ⟨⟨_, .step (e := .write true) hfl trivial rfl, ⟨rfl, ⟨_, rfl⟩, ⟨10, rfl⟩, rfl⟩, rfl⟩,
    ⟨_, .step (e := .write false) hfl trivial rfl, ⟨rfl, ⟨_, rfl⟩, ⟨10, rfl⟩, rfl⟩, rfl⟩⟩

end TtyEndOfFile
