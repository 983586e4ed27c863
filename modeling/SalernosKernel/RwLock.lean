import Mathlib.Algebra.BigOperators.Group.Finset.Piecewise
import SalernosKernel.Runs
import SalernosKernel.WaitQueue

/-! # The readers-writer lock

`com/lib/rwlock.c`. A step is a section under the spinlock of the lock: a thread's first one of a
call, one after it was woken, or a wake-up from elsewhere. A thread may take the lock for reading
more than once, or try to take it again while it holds it. -/
namespace RwLock

open WaitQueue
open Function

inductive Place where
  | outside
  | readWaiting
  | readWoken
  | writeWaiting
  | writeWoken
  deriving DecidableEq

structure Member where
  place : Place
  reads : ℕ
  writes : Bool
  deriving DecidableEq

structure State (T : Type*) where
  activeReaders : ℕ
  waitingWriters : ℕ
  writerActive : Bool
  readersWaitlist : List T
  writersWaitlist : List T
  member : T → Member

inductive Event (T : Type*) where
  | acquireRead (t : T)
  | acquireWrite (t : T)
  | resume (t : T)
  | releaseRead (t : T)
  | releaseWrite (t : T)
  | wakeUp (t : T)
  deriving DecidableEq

def Place.wake : Place → Place
  | .readWaiting => .readWoken
  | .writeWaiting => .writeWoken
  | place => place

def Member.wake (m : Member) : Member := { m with place := m.place.wake }

def Member.Entering (m : Member) : Prop := m.place = .writeWaiting ∨ m.place = .writeWoken
  deriving Decidable

section Model

variable {T : Type*} [DecidableEq T]

def krwlockInit : State T := ⟨0, 0, false, [], [], fun _ => ⟨.outside, 0, false⟩⟩

def readTest (s : State T) (t : T) : State T :=
  let m := s.member t
  if s.writerActive = true ∨ 0 < s.waitingWriters then
    { s with
      readersWaitlist := s.readersWaitlist ++ [t]
      member := update s.member t { m with place := .readWaiting } }
  else
    { s with
      activeReaders := s.activeReaders + 1
      member := update s.member t { m with place := .outside, reads := m.reads + 1 } }

/-- From the test of the loop of `krwlock_acquire_write` on; no result is the failed assertion. -/
def writeTest (s : State T) (t : T) : Option (State T) :=
  let m := s.member t
  if s.writerActive = true ∨ 0 < s.activeReaders then
    some { s with
      writersWaitlist := s.writersWaitlist ++ [t]
      member := update s.member t { m with place := .writeWaiting } }
  else if s.writerActive then none
  else
    some { s with
      waitingWriters := s.waitingWriters - 1
      writerActive := true
      member := update s.member t { m with place := .outside, writes := true } }

def enterWrite (s : State T) (t : T) : State T :=
  { s with
    waitingWriters := s.waitingWriters + 1
    member := update s.member t { s.member t with place := .writeWoken } }

def notifyWriter (s : State T) : State T :=
  match s.writersWaitlist with
  | [] => s
  | u :: rest =>
    { s with writersWaitlist := rest, member := update s.member u (s.member u).wake }

def notifyReaders (s : State T) : State T :=
  { s with
    readersWaitlist := []
    member := fun u => if u ∈ s.readersWaitlist then (s.member u).wake else s.member u }

def krwlockReleaseRead (s : State T) (t : T) : State T :=
  let m := s.member t
  let s := { s with
    activeReaders := s.activeReaders - 1
    member := update s.member t { m with reads := m.reads - 1 } }
  if s.activeReaders = 0 ∧ 0 < s.waitingWriters then notifyWriter s else s

def krwlockReleaseWrite (s : State T) (t : T) : State T :=
  let s := { s with
    writerActive := false
    member := update s.member t { s.member t with writes := false } }
  if s.waitingWriters = 0 then notifyReaders s else notifyWriter s

def next (s : State T) : Event T → Option (State T)
  | .acquireRead t => some (readTest s t)
  | .acquireWrite t => writeTest (enterWrite s t) t
  | .resume t => if (s.member t).place = .readWoken then some (readTest s t) else writeTest s t
  | .releaseRead t => some (krwlockReleaseRead s t)
  | .releaseWrite t => some (krwlockReleaseWrite s t)
  | .wakeUp t =>
    some { s with
      readersWaitlist := s.readersWaitlist.erase t
      writersWaitlist := s.writersWaitlist.erase t
      member := update s.member t (s.member t).wake }

/-- Calls are matched, and only a thread that was woken goes on. -/
def Allowed (s : State T) : Event T → Prop
  | .acquireRead t => (s.member t).place = .outside
  | .acquireWrite t => (s.member t).place = .outside
  | .resume t => (s.member t).place = .readWoken ∨ (s.member t).place = .writeWoken
  | .releaseRead t => (s.member t).place = .outside ∧ 0 < (s.member t).reads
  | .releaseWrite t => (s.member t).place = .outside ∧ (s.member t).writes = true
  | .wakeUp t => (s.member t).place = .readWaiting ∨ (s.member t).place = .writeWaiting

instance (s : State T) (e : Event T) : Decidable (Allowed s e) := by
  cases e <;> simp only [Allowed] <;> infer_instance

end Model

def Member.entering (m : Member) : ℕ := if m.Entering then 1 else 0

section Invariants

variable {T : Type*} [DecidableEq T] [Fintype T]

structure Counted (s : State T) : Prop where
  readers : s.activeReaders = tally Member.reads s.member
  entering : s.waitingWriters = tally Member.entering s.member
  writer : s.writerActive.toNat = tally (fun m => m.writes.toNat) s.member
  exclusive : s.writerActive = true → s.activeReaders = 0
  readersList : Listed s.readersWaitlist s.member (·.place = .readWaiting)
  writersList : Listed s.writersWaitlist s.member (·.place = .writeWaiting)

structure Invariant (s : State T) : Prop extends Counted s where
  blocked : s.readersWaitlist ≠ [] → s.writerActive = true ∨ 0 < s.waitingWriters
  woken : s.writerActive = false → s.activeReaders = 0 → 0 < s.waitingWriters →
    ∃ t, (s.member t).place = .writeWoken

variable {s s' : State T} {t : T}

omit [DecidableEq T] in
theorem invariant_init : Invariant (krwlockInit : State T) where
  readers := by simp [krwlockInit, tally]
  entering := by simp [krwlockInit, tally, Member.entering, Member.Entering]
  writer := by simp [krwlockInit, tally]
  exclusive := fun _ => rfl
  readersList := listed_nil fun _ => by simp [krwlockInit]
  writersList := listed_nil fun _ => by simp [krwlockInit]
  blocked := fun h => absurd rfl h
  woken := fun _ _ h => absurd h (lt_irrefl 0)

theorem Counted.set (h : Counted s) {x : Member} (hm : s'.member = update s.member t x)
    (hrs : s'.activeReaders + (s.member t).reads = s.activeReaders + x.reads)
    (hen : s'.waitingWriters + (s.member t).entering = s.waitingWriters + x.entering)
    (hwr : s'.writerActive.toNat + (s.member t).writes.toNat =
      s.writerActive.toNat + x.writes.toNat)
    (hec : s'.writerActive = true → s'.activeReaders = 0)
    (hrd : Listed s'.readersWaitlist (update s.member t x) (·.place = .readWaiting))
    (hwi : Listed s'.writersWaitlist (update s.member t x)
      (·.place = .writeWaiting)) : Counted s' := by
  have hr := tally_update Member.reads s.member t x
  have he := tally_update Member.entering s.member t x
  have hw := tally_update (fun m => m.writes.toNat) s.member t x
  have hr₀ := h.readers
  have he₀ := h.entering
  have hw₀ := h.writer
  refine ⟨?_, ?_, ?_, hec, hm ▸ hrd, hm ▸ hwi⟩ <;> rw [hm] <;> omega

omit [Fintype T] in
theorem woken_update {m : T → Member} {x : Member} (ht : (m t).place ≠ .writeWoken)
    (h : ∃ u, (m u).place = .writeWoken) :
    ∃ u, (update m t x u).place = .writeWoken := by
  obtain ⟨u, hu⟩ := h
  have hne : u ≠ t := fun heq => ht (heq ▸ hu)
  exact ⟨u, by rwa [update_of_ne hne]⟩

theorem Invariant.readTest (h : Invariant s)
    (ht : (s.member t).place = .outside ∨ (s.member t).place = .readWoken) :
    Invariant (readTest s t) := by
  have hou : (s.member t).entering = 0 := by
    rcases ht with ht | ht <;> simp [Member.entering, Member.Entering, ht]
  have hr : ¬ (s.member t).place = .readWaiting := by rcases ht with ht | ht <;> simp [ht]
  have hw : ¬ (s.member t).place = .writeWaiting := by rcases ht with ht | ht <;> simp [ht]
  have hwn : (s.member t).place ≠ .writeWoken := by rcases ht with ht | ht <;> simp [ht]
  rw [RwLock.readTest]
  split_ifs with hbs
  · refine ⟨h.toCounted.set rfl rfl (by rw [hou]; rfl) rfl h.exclusive
      (h.readersList.enqueue hr rfl) (h.writersList.update ?_), fun _ => hbs, ?_⟩
    · simp [hw]
    · intro hfr hz hwt
      exact woken_update hwn (h.woken hfr hz hwt)
  · rw [not_or, Bool.not_eq_true, Nat.not_lt, Nat.le_zero] at hbs
    refine ⟨h.toCounted.set rfl (by dsimp only; omega) (by rw [hou]; rfl) rfl ?_
      (h.readersList.update ?_) (h.writersList.update ?_), ?_, ?_⟩
    · exact fun hac => absurd (hbs.1.symm.trans hac) Bool.false_ne_true
    · simp [hr]
    · simp [hw]
    · exact h.blocked
    · exact fun _ hz => absurd hz (Nat.succ_ne_zero _)

theorem Counted.writeTest (h : Counted s) (hbl : 0 < s.waitingWriters)
    (ht : (s.member t).place = .writeWoken) :
    ∃ s', writeTest s t = some s' ∧ Invariant s' := by
  have hin : (s.member t).entering = 1 := by simp [Member.entering, Member.Entering, ht]
  rw [RwLock.writeTest]
  split_ifs with hbs hac
  · refine ⟨_, rfl, h.set rfl rfl (by rw [hin]; rfl) rfl h.exclusive (h.readersList.update ?_)
      (h.writersList.enqueue ?_ rfl), fun _ => .inr hbl, ?_⟩
    · simp [ht]
    · simp [ht]
    · intro hfr hz
      rcases hbs with hac | hrd
      · exact absurd (hfr.symm.trans hac) Bool.false_ne_true
      · exact absurd hz hrd.ne'
  · exact absurd (.inl hac) hbs
  · rw [not_or, Bool.not_eq_true, Nat.not_lt, Nat.le_zero] at hbs
    have hno : (s.member t).writes = false := by
      have hle := le_tally (fun m : Member => m.writes.toNat) s.member t
      rw [← h.writer, hbs.1] at hle
      exact Bool.toNat_eq_zero.mp (Nat.le_zero.mp hle)
    refine ⟨_, rfl, h.set rfl rfl ?_ (by rw [hbs.1, hno]; rfl) (fun _ => hbs.2)
      (h.readersList.update ?_) (h.writersList.update ?_), fun _ => .inl rfl, ?_⟩
    · rw [hin]
      change s.waitingWriters - 1 + 1 = s.waitingWriters + 0
      omega
    · simp [ht]
    · simp [ht]
    · exact fun hfr => absurd hfr.symm Bool.false_ne_true

theorem Invariant.enterWrite (h : Invariant s) (ht : (s.member t).place = .outside) :
    Counted (enterWrite s t) := by
  have hou : (s.member t).entering = 0 := by simp [Member.entering, Member.Entering, ht]
  refine h.toCounted.set rfl rfl (by rw [hou]; rfl) rfl h.exclusive (h.readersList.update ?_)
    (h.writersList.update ?_)
  · simp [ht]
  · simp [ht]

theorem entering_wake (m : Member) : m.wake.entering = m.entering := by
  obtain ⟨place, reads, writes⟩ := m
  cases place <;> rfl

theorem wake_not_waiting (m : Member) :
    m.wake.place ≠ .readWaiting ∧ m.wake.place ≠ .writeWaiting := by
  rw [Member.wake]
  cases m.place <;> exact ⟨nofun, nofun⟩

theorem Counted.notifyWriter (h : Counted s) :
    Counted (notifyWriter s) ∧ (notifyWriter s).writerActive = s.writerActive ∧
      (notifyWriter s).activeReaders = s.activeReaders ∧
      (notifyWriter s).waitingWriters = s.waitingWriters ∧
      (notifyWriter s).readersWaitlist = s.readersWaitlist ∧
      (0 < s.waitingWriters → ∃ t, ((notifyWriter s).member t).place = .writeWoken) := by
  rw [RwLock.notifyWriter]
  split
  · rename_i hq
    refine ⟨h, rfl, rfl, rfl, rfl, fun hps => ?_⟩
    rw [h.entering] at hps
    obtain ⟨t, ht⟩ := exists_of_tally_pos hps
    have hnt : (s.member t).place ≠ .writeWaiting := fun hw =>
      absurd ((h.writersList.mem_iff t).mpr hw) (hq ▸ List.not_mem_nil)
    have hin : (s.member t).Entering := by
      by_contra hou
      rw [Member.entering, if_neg hou] at ht
      exact lt_irrefl 0 ht
    exact ⟨t, hin.resolve_left hnt⟩
  · rename_i u rest hq
    have hu : (s.member u).place = .writeWaiting :=
      (h.writersList.mem_iff u).mp (hq ▸ List.mem_cons_self)
    have hls := h.writersList
    rw [hq] at hls
    have hwk := wake_not_waiting (s.member u)
    refine ⟨h.set rfl rfl (by rw [entering_wake]) rfl h.exclusive (h.readersList.update ?_)
      (hls.dequeue hwk.2), rfl, rfl, rfl, rfl, fun _ => ⟨u, ?_⟩⟩
    · simp [hwk.1, hu]
    · dsimp only
      rw [update_self, Member.wake, hu]
      rfl

theorem Counted.notifyReaders (h : Counted s) : Counted (notifyReaders s) := by
  have hmm : ∀ u, (RwLock.notifyReaders s).member u = (s.member u).wake ∧
      (s.member u).place = .readWaiting ∨
      (RwLock.notifyReaders s).member u = s.member u ∧ (s.member u).place ≠ .readWaiting := by
    intro u
    by_cases hu : u ∈ s.readersWaitlist
    · exact .inl ⟨if_pos hu, (h.readersList.mem_iff u).mp hu⟩
    · exact .inr ⟨if_neg hu, fun hw => hu ((h.readersList.mem_iff u).mpr hw)⟩
  refine ⟨?_, ?_, ?_, h.exclusive, listed_nil fun u => ?_, ?_⟩
  · refine h.readers.trans (tally_congr fun u => ?_).symm
    rcases hmm u with ⟨hu, -⟩ | ⟨hu, -⟩ <;> rw [hu]
    rfl
  · refine h.entering.trans (tally_congr fun u => ?_).symm
    rcases hmm u with ⟨hu, -⟩ | ⟨hu, -⟩ <;> rw [hu]
    exact entering_wake _
  · refine h.writer.trans (tally_congr fun u => ?_).symm
    rcases hmm u with ⟨hu, -⟩ | ⟨hu, -⟩ <;> rw [hu]
    rfl
  · rcases hmm u with ⟨hu, -⟩ | ⟨hu, hpl⟩ <;> rw [hu]
    · exact (wake_not_waiting _).1
    · exact hpl
  · refine ⟨h.writersList.nodup, fun u => (h.writersList.mem_iff u).trans ?_⟩
    rcases hmm u with ⟨hu, hpl⟩ | ⟨hu, -⟩ <;> rw [hu]
    simp [hpl, (wake_not_waiting _).2]

theorem Counted.invariant_notifyWriter (h : Counted s)
    (hbl : s.readersWaitlist ≠ [] → s.writerActive = true ∨ 0 < s.waitingWriters) :
    Invariant (RwLock.notifyWriter s) := by
  obtain ⟨hcn, hac, -, hwt, hrd, hwn⟩ := h.notifyWriter
  refine ⟨hcn, ?_, fun _ _ hps => hwn (hwt ▸ hps)⟩
  rw [hac, hwt, hrd]
  exact hbl

theorem Invariant.releaseRead (h : Invariant s) (hrs : 0 < (s.member t).reads) :
    Invariant (krwlockReleaseRead s t) := by
  have hle := le_tally Member.reads s.member t
  rw [← h.readers] at hle
  have hcn : Counted { s with
      activeReaders := s.activeReaders - 1
      member := update s.member t
        { s.member t with reads := (s.member t).reads - 1 } } := by
    refine h.toCounted.set rfl ?_ rfl rfl ?_ (h.readersList.update Iff.rfl)
      (h.writersList.update Iff.rfl)
    · dsimp only
      omega
    · intro hac
      exact absurd (h.exclusive hac) (by omega)
  rw [krwlockReleaseRead]
  split_ifs with hlt
  · exact hcn.invariant_notifyWriter h.blocked
  · refine ⟨hcn, h.blocked, fun _ hz hps => ?_⟩
    exact absurd ⟨hz, hps⟩ hlt

omit [DecidableEq T] in
theorem Invariant.writerActive (h : Invariant s) (hwr : (s.member t).writes = true) :
    s.writerActive = true := by
  have hle := le_tally (fun m : Member => m.writes.toNat) s.member t
  rw [← h.writer, hwr] at hle
  cases hs : s.writerActive with
  | true => rfl
  | false => exact absurd (hs ▸ hle) (by decide)

theorem Invariant.releaseWrite (h : Invariant s) (hwr : (s.member t).writes = true) :
    Invariant (krwlockReleaseWrite s t) := by
  have hac := h.writerActive hwr
  have hcn : Counted { s with
      writerActive := false
      member := update s.member t { s.member t with writes := false } } := by
    refine h.toCounted.set rfl rfl rfl (by rw [hac, hwr]; rfl) nofun
      (h.readersList.update Iff.rfl) (h.writersList.update Iff.rfl)
  rw [krwlockReleaseWrite]
  split_ifs with hno
  · refine ⟨hcn.notifyReaders, fun h => absurd rfl h, fun _ _ hps => ?_⟩
    exact absurd hno hps.ne'
  · exact hcn.invariant_notifyWriter fun _ => .inr (pos_of_ne_zero hno)

theorem Invariant.wakeUp (h : Invariant s) : Invariant { s with
    readersWaitlist := s.readersWaitlist.erase t
    writersWaitlist := s.writersWaitlist.erase t
    member := update s.member t (s.member t).wake } := by
  have hwk := wake_not_waiting (s.member t)
  refine ⟨h.toCounted.set rfl rfl (by rw [entering_wake]) rfl h.exclusive
    (h.readersList.erase hwk.1) (h.writersList.erase hwk.2), fun hq => ?_, ?_⟩
  · exact h.blocked fun hnl => hq (by rw [hnl]; rfl)
  · intro hfr hz hps
    obtain ⟨u, hu⟩ := h.woken hfr hz hps
    refine ⟨u, ?_⟩
    by_cases hut : u = t
    · dsimp only
      rw [hut, update_self, Member.wake, ← hut, hu]
      rfl
    · dsimp only
      rwa [update_of_ne hut]

theorem Invariant.next (h : Invariant s) {e : Event T} (he : Allowed s e) :
    ∃ s', next s e = some s' ∧ Invariant s' := by
  cases e with
  | acquireRead t => exact ⟨_, rfl, h.readTest (.inl he)⟩
  | acquireWrite t =>
    refine (h.enterWrite he).writeTest (Nat.succ_pos _) ?_
    rw [RwLock.enterWrite]
    dsimp only
    rw [update_self]
  | resume t =>
    rw [RwLock.next]
    rcases he with ht | ht
    · rw [if_pos ht]
      exact ⟨_, rfl, h.readTest (.inr ht)⟩
    · rw [if_neg (by rw [ht]; decide)]
      refine h.toCounted.writeTest ?_ ht
      have hle := le_tally Member.entering s.member t
      rw [← h.entering, Member.entering, if_pos (.inr ht)] at hle
      exact hle
  | releaseRead t => exact ⟨_, rfl, h.releaseRead he.2⟩
  | releaseWrite t => exact ⟨_, rfl, h.releaseWrite he.2⟩
  | wakeUp t => exact ⟨_, rfl, h.wakeUp⟩

omit [DecidableEq T] in
theorem Invariant.not_stuck (h : Invariant s)
    (hfr : ∀ t, (s.member t).reads = 0 ∧ (s.member t).writes = false)
    (hrn : ∀ t, (s.member t).place ≠ .readWoken ∧ (s.member t).place ≠ .writeWoken) :
    ¬ (s.readersWaitlist ≠ [] ∨ s.writersWaitlist ≠ []) := by
  have hrd : s.activeReaders = 0 := by
    rw [h.readers]
    exact Finset.sum_eq_zero fun t _ => (hfr t).1
  have hac : s.writerActive = false := by
    have hwrt := h.writer
    rw [tally, Finset.sum_eq_zero fun t _ => by rw [(hfr t).2]; rfl] at hwrt
    exact Bool.toNat_eq_zero.mp hwrt
  -- With a writer inside, one of them was told.
  have hno : ¬ 0 < s.waitingWriters := fun hps => by
    obtain ⟨t, ht⟩ := h.woken hac hrd hps
    exact (hrn t).2 ht
  rintro (hls | hls)
  · rcases h.blocked hls with hwrt | hps
    · exact Bool.false_ne_true (hac.symm.trans hwrt)
    · exact hno hps
  · obtain ⟨t, ht⟩ := List.exists_mem_of_ne_nil _ hls
    have hle := le_tally Member.entering s.member t
    rw [← h.entering, Member.entering, if_pos (.inl ((h.writersList.mem_iff t).mp ht))] at hle
    exact hno hle

end Invariants

/-- Writers exclude everybody else, the assertion holds, the counter is right, and nobody is left on
a wait list of a free lock with nobody to run. -/
theorem rwlock_safe {T : Type*} [DecidableEq T] [Fintype T] {s : State T}
    (h : Runs.Reaches next Allowed krwlockInit s) :
    (∀ t, (s.member t).writes = true →
      ∀ u, (s.member u).reads = 0 ∧ ((s.member u).writes = true → u = t)) ∧
    (∀ e, Allowed s e → next s e ≠ none) ∧
    s.waitingWriters = (Finset.univ.filter fun t => (s.member t).Entering).card ∧
    ¬ ((∀ t, (s.member t).reads = 0 ∧ (s.member t).writes = false) ∧
      (∀ t, (s.member t).place ≠ .readWoken ∧ (s.member t).place ≠ .writeWoken) ∧
      (s.readersWaitlist ≠ [] ∨ s.writersWaitlist ≠ [])) := by
  have hiv : Invariant s := by
    refine h.invariant Invariant invariant_init fun s e s' hs he hn => ?_
    obtain ⟨s₁, hn₁, hiv⟩ := hs.next he
    obtain rfl : s₁ = s' := Option.some.inj (hn₁.symm.trans hn)
    exact hiv
  refine ⟨fun t ht u => ⟨?_, fun hu => ?_⟩, fun e he hn => ?_, ?_, ?_⟩
  · have hle := le_tally Member.reads s.member u
    rw [← hiv.readers, hiv.exclusive (hiv.writerActive ht)] at hle
    exact Nat.le_zero.mp hle
  · by_contra hne
    have hle := add_le_tally (fun m : Member => m.writes.toNat) s.member hne
    rw [← hiv.writer, ht, hu] at hle
    exact absurd (hle.trans (Bool.toNat_le _)) (by decide)
  · obtain ⟨s', hs', -⟩ := hiv.next he
    exact Option.some_ne_none s' (hs'.symm.trans hn)
  · rw [hiv.entering, Finset.card_filter]
    rfl
  · rintro ⟨hfr, hrn, hls⟩
    exact hiv.not_stuck hfr hrn hls

theorem rwlock_safe_handover : ∃ s : State (Fin 3), Runs.Reaches next Allowed krwlockInit s ∧
    s.readersWaitlist = [2] ∧ (s.member 1).place = .writeWoken ∧
    s.waitingWriters = (Finset.univ.filter fun t => (s.member t).Entering).card ∧
    ∀ e, Allowed s e → next s e ≠ none := by
  have hrn : (Runs.run next Allowed (krwlockInit : State (Fin 3)) [.acquireRead 0,
      .acquireWrite 1, .acquireRead 2, .wakeUp 2, .resume 2, .releaseRead 0]).map
        (fun s => (s.readersWaitlist, (s.member 1).place)) = some ([2], .writeWoken) := by
    decide +kernel
  obtain ⟨s, hs, hst⟩ := Option.map_eq_some_iff.mp hrn
  obtain ⟨hls, hpl⟩ := Prod.mk.inj hst
  have hrc := Runs.run_reaches hs
  obtain ⟨-, hass, hct, -⟩ := rwlock_safe hrc
  exact ⟨s, hrc, hls, hpl, hct, hass⟩

end RwLock
