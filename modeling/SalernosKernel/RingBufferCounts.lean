import SalernosKernel.RingBuffer

/-! # The byte counts of the ring buffer

One call of `kringbuffer_write_nolock` or `kringbuffer_read_nolock` from its start to its end, under
any hangups and signals, with whatever other threads do to the ring while it waits. -/
namespace RingBufferCounts

open RingBuffer Option

structure Progress where
  rb : Ring
  call : Call
  moved : ℕ

inductive Event where
  | check (h : Hangup)
  | wake (signal : Bool) (h : Hangup)
  | other (rb : Ring)

def advance (rb rb' : Ring) : ℕ :=
  (rb'.writeIndex - rb.writeIndex).toNat + (rb'.readIndex - rb.readIndex).toNat

section Run

variable (atomicSize : ℕ)

def Progress.to (s : Progress) (r : Ring × Call × Bool) : Progress :=
  ⟨r.1, r.2.1, s.moved + advance s.rb r.1⟩

def next (s : Progress) : Event → Option Progress
  | .check h => (step atomicSize s.rb h s.call).map s.to
  | .wake signal h => (wake atomicSize s.rb signal h s.call).map s.to
  -- the lock is dropped in a wait only
  | .other rb => if Waits s.call then some { s with rb := rb } else none

/-- A hangup that ends a write finds in `*buflen` what has been written. -/
def HangupFair (h : Hangup) (buflen bytesWritten : ℕ) : Prop :=
  h.Ends → h.nbytes.getD buflen = bytesWritten

/-- The step does not end the call in a way that leaves `*buflen` as it is. -/
def Fair (s : Progress) : Event → Prop
  | .check h =>
    match s.call with
    | .writing _ buflen bytesWritten => HangupFair h buflen bytesWritten
    | .writingOnce buf => HangupFair h buf.length 0 ∧ (¬ h.Ends →
        atomicSize ≤ min (h.nbytes.getD buf.length) s.rb.availWrite.toNat ∨
          h.nbytes.getD buf.length = 0)
    | .reading _ _ => ¬ h.Ends
    | _ => True
  | .wake signal h =>
    match s.call with
    | .writeWaiting _ buflen bytesWritten => signal ∨ HangupFair h buflen bytesWritten
    | .readWaiting _ => ¬ h.Ends
    | _ => True
  | .other _ => True

end Run

def Honest (s : Progress) : Prop :=
  ∀ ret stored dst, s.call = .returned ret stored dst → stored = some s.moved

def Counted (s : Progress) : Prop :=
  match s.call with
  | .writing _ _ bytesWritten => s.moved = bytesWritten
  | .writeWaiting _ _ bytesWritten => s.moved = bytesWritten
  | .returned _ _ _ => True
  | _ => s.moved = 0

section Steps

variable {atomicSize : ℕ} {s s' : Progress} {rb : Ring} {buf : List UInt8} {h : Hangup}
  {buflen bytesWritten nbytes : ℕ} {ret : Ret} {stored : Option ℕ} {dst : List UInt8}

theorem honest_returned
    (hcl : s.call = .returned ret stored dst) : Honest s ↔ stored = some s.moved := by
  constructor
  · intro hs
    exact hs _ _ _ hcl
  · rintro rfl ret' stored' dst' hcl'
    rw [hcl] at hcl'
    cases hcl'
    rfl

theorem honest_of_ne (h : ∀ ret stored dst, s.call ≠ .returned ret stored dst) : Honest s :=
  fun _ _ _ hcl => absurd hcl (h _ _ _)

theorem advance_self (rb : Ring) : advance rb rb = 0 := by simp [advance]

variable {n : ℕ}

theorem advance_put (hn : n ≤ rb.availWrite.toNat) : advance rb (rb.put buf n) = n := by
  change (rb.writeIndex + BitVec.ofNat 64 n - rb.writeIndex).toNat +
    (rb.readIndex - rb.readIndex).toNat = n
  rw [BitVec.add_comm, BitVec.add_sub_cancel, BitVec.sub_self, BitVec.toNat_ofNat,
    Nat.mod_eq_of_lt (by omega)]
  rfl

theorem advance_get (hn : n ≤ rb.availRead.toNat) : advance rb (rb.get n).2 = n := by
  change (rb.writeIndex - rb.writeIndex).toNat +
    (rb.readIndex + BitVec.ofNat 64 n - rb.readIndex).toNat = n
  have hnt : (BitVec.ofNat 64 n).toNat = n := by
    rw [BitVec.toNat_ofNat, Nat.mod_eq_of_lt (by omega)]
  rw [BitVec.add_comm rb.readIndex, BitVec.add_sub_cancel, BitVec.sub_self, hnt]
  exact Nat.zero_add n

def Good (s : Progress) : Prop := Counted s ∧ Honest s

theorem good_writeTop (hmv : s.moved = bytesWritten)
    (hcl : s.call = writeTop buf buflen bytesWritten) : Good s := by
  rw [writeTop] at hcl
  split_ifs at hcl
  · exact ⟨by rw [Counted, hcl]; trivial, (honest_returned hcl).mpr (by rw [hmv])⟩
  · exact ⟨by rw [Counted, hcl]; exact hmv, honest_of_ne (by simp [hcl])⟩

theorem good_writeTest (atomicSize : ℕ) (buf : List UInt8) (buflen : ℕ) (hmv : s.moved = bytesWritten) :
    Good (s.to (writeTest atomicSize s.rb buf buflen bytesWritten)) := by
  rw [writeTest]
  split_ifs
  · refine ⟨?_, honest_of_ne (by simp [Progress.to])⟩
    change s.moved + advance s.rb s.rb = bytesWritten
    rw [advance_self, add_zero, hmv]
  · apply good_writeTop _ rfl
    change s.moved + advance s.rb (s.rb.put _ _) = _
    rw [advance_put (min_le_right _ _), hmv]

theorem good_readEnd (nbytes : ℕ) (hmv : s.moved = 0) : Good (s.to (readEnd s.rb nbytes)) := by
  rw [readEnd]
  split_ifs
  · refine ⟨trivial, (honest_returned rfl).mpr ?_⟩
    change some 0 = some (s.moved + advance s.rb s.rb)
    rw [advance_self, hmv]
  · refine ⟨trivial, (honest_returned rfl).mpr ?_⟩
    change some _ = some (s.moved + advance s.rb (s.rb.get _).2)
    rw [advance_get (min_le_right _ _), hmv, zero_add]

theorem good_readTest (atomicSize nbytes : ℕ) (blocking : Bool) (hmv : s.moved = 0) :
    Good (s.to (readTest atomicSize s.rb nbytes blocking)) := by
  rw [readTest]
  split_ifs
  · refine ⟨?_, honest_of_ne (by simp [Progress.to])⟩
    change s.moved + advance s.rb s.rb = 0
    rw [advance_self, hmv]
  · refine ⟨trivial, (honest_returned rfl).mpr ?_⟩
    change some 0 = some (s.moved + advance s.rb s.rb)
    rw [advance_self, hmv]
  · exact good_readEnd nbytes hmv

theorem honest_stop {b : Bool} : Counted (s.to (s.rb, .returned ret stored dst, b)) ∧
      (Honest (s.to (s.rb, .returned ret stored dst, b)) ↔ stored = some s.moved) := by
  refine ⟨trivial, (honest_returned rfl).trans ?_⟩
  change _ = some (s.moved + advance s.rb s.rb) ↔ _
  rw [advance_self, add_zero]

theorem Good.fair (h : Good s') {p : Prop} (hp : p) : Counted s' ∧ (Honest s' ↔ p) :=
  ⟨h.1, iff_of_true h.2 hp⟩

theorem counted_writingOnce (h : Hangup) (hmv : s.moved = 0) (hcl : s.call = .writingOnce buf)
    (hn : next atomicSize s (.check h) = some s') :
    Counted s' ∧ (Honest s' ↔ Fair atomicSize s (.check h)) := by
  obtain ⟨r, hr, rfl⟩ := map_eq_some_iff.mp hn
  rw [hcl] at hr
  obtain rfl := some.inj hr
  simp only [Fair, HangupFair, hcl]
  split_ifs with hen
  · refine ⟨honest_stop.1, honest_stop.2.trans ?_⟩
    simp [hen, hmv]
  · rw [writeOnce]
    split_ifs with hfw
    · refine ⟨honest_stop.1, honest_stop.2.trans ?_⟩
      rw [hmv]
      simp only [hen, false_implies, not_false_eq_true, true_implies, true_and, some.injEq]
      omega
    · refine ⟨trivial, iff_of_true ((honest_returned rfl).mpr ?_) ?_⟩
      · change some _ = some (s.moved + advance s.rb (s.rb.put _ _))
        rw [advance_put (Nat.min_le_right _ _), hmv, Nat.zero_add]
      · exact ⟨fun h => absurd h hen, fun _ => .inl (Nat.le_of_not_lt hfw)⟩

theorem step_honest {e : Event} (hs : Counted s) (hn : next atomicSize s e = some s') :
    Counted s' ∧ (Honest s' ↔ Fair atomicSize s e) := by
  cases e with
  | check h =>
    cases hcl : s.call with
    | writing buf buflen bytesWritten =>
      obtain ⟨r, hr, rfl⟩ := map_eq_some_iff.mp hn
      rw [Counted, hcl] at hs
      rw [hcl] at hr
      cases hr
      simp only [Fair, HangupFair, hcl]
      split_ifs with hen
      · refine ⟨honest_stop.1, honest_stop.2.trans ?_⟩
        simp [hen, hs]
      · exact (good_writeTest _ _ _ hs).fair fun h => absurd h hen
    | writingOnce buf =>
      rw [Counted, hcl] at hs
      exact counted_writingOnce h hs hcl hn
    | reading nbytes blocking =>
      obtain ⟨r, hr, rfl⟩ := map_eq_some_iff.mp hn
      rw [Counted, hcl] at hs
      rw [hcl, step] at hr
      simp only [Fair, hcl]
      split_ifs at hr with hen hsize
      · obtain rfl := some.inj hr
        exact ⟨honest_stop.1, honest_stop.2.trans (by simp [hen])⟩
      · obtain rfl := some.inj hr
        exact (good_readTest _ _ _ hs).fair hen
    | writeWaiting buf buflen bytesWritten | readWaiting nbytes | returned ret stored dst =>
        simp [next, hcl, step] at hn
  | wake signal h =>
    cases hcl : s.call with
    | writeWaiting buf buflen bytesWritten =>
      obtain ⟨r, hr, rfl⟩ := map_eq_some_iff.mp hn
      rw [Counted, hcl] at hs
      rw [hcl] at hr
      obtain rfl := some.inj hr
      simp only [Fair, HangupFair, hcl]
      by_cases hsg : signal = true
      · rw [if_pos hsg]
        exact ⟨honest_stop.1, honest_stop.2.trans (by simp [hsg, hs])⟩
      · rw [if_neg hsg]
        split_ifs with hen
        · exact ⟨honest_stop.1, honest_stop.2.trans (by simp [hsg, hen, hs])⟩
        · exact (good_writeTest _ _ _ hs).fair (.inr fun h => absurd h hen)
    | readWaiting nbytes =>
      obtain ⟨r, hr, rfl⟩ := map_eq_some_iff.mp hn
      rw [Counted, hcl] at hs
      rw [hcl] at hr
      obtain rfl := some.inj hr
      simp only [Fair, hcl]
      split_ifs with hen heof hsg
      · exact ⟨honest_stop.1, honest_stop.2.trans (by simp [hen])⟩
      · exact (good_readEnd _ hs).fair hen
      · exact ⟨honest_stop.1, honest_stop.2.trans (by simp [hen, hs])⟩
      · exact (good_readTest _ _ _ hs).fair hen
    | writing buf buflen bytesWritten | writingOnce buf | reading nbytes blocking
    | returned ret stored dst => simp [next, hcl, wake] at hn
  | other rb =>
    rw [next] at hn
    split_ifs at hn with hwt
    obtain rfl := some.inj hn
    refine ⟨hs, iff_of_true (honest_of_ne ?_) trivial⟩
    rintro ret stored dst hcl
    rw [show s.call = _ from hcl] at hwt
    exact hwt

end Steps

theorem counted_enter {atomicSize : ℕ} {rb : Ring} {request : Request} {call : Call}
    (h : enter atomicSize rb request = some call) : Good ⟨rb, call, 0⟩ := by
  cases request with
  | write buf blocking =>
    rw [enter] at h
    split_ifs at h
    · cases h
      exact good_writeTop rfl rfl
    · cases h
      exact ⟨rfl, honest_of_ne (by simp)⟩
  | read nbytes blocking =>
    cases h
    exact ⟨rfl, honest_of_ne (by simp)⟩

/-- From its start on, a call is honest up to the step that ends it, and over that step exactly if it
meets the condition. -/
theorem counts_honest_iff (atomicSize : ℕ) (rb : Ring) (request : Request) (call : Call)
    (hcall : enter atomicSize rb request = some call) {s : Progress}
    (h : Runs.Reaches (next atomicSize) (fun _ _ => True) ⟨rb, call, 0⟩ s) :
    Honest ⟨rb, call, 0⟩ ∧
      ∀ e s', next atomicSize s e = some s' → (Honest s' ↔ Fair atomicSize s e) := by
  have hcn : Counted s :=
    h.invariant Counted (counted_enter hcall).1 fun _ _ _ hs _ hn => (step_honest hs hn).1
  exact ⟨(counted_enter hcall).2, fun e s' hn => (step_honest hcn hn).2⟩

theorem counts_honest_room : ∃ s', next 1 ⟨sampleRing, .writingOnce [1, 2, 3], 0⟩ (.check noHangup) =
    some s' ∧ s'.moved = 3 ∧ Honest s' := by
  have hn : (next 1 ⟨sampleRing, .writingOnce [1, 2, 3], 0⟩ (.check noHangup)).map Progress.moved =
      some 3 := by decide +kernel
  obtain ⟨s', hs', hmv⟩ := map_eq_some_iff.mp hn
  have hfr : Fair 1 ⟨sampleRing, .writingOnce [1, 2, 3], 0⟩ (.check noHangup) :=
    ⟨fun h => absurd h (by decide), fun _ => .inl (by decide +kernel)⟩
  exact ⟨s', hs', hmv, ((counts_honest_iff 1 sampleRing (.write [1, 2, 3] false) _ rfl .start).2 _ _
    hs').mpr hfr⟩

/-- A write to a full ring reports three bytes and writes none. -/
theorem full_ring_dishonest : ∃ s',
    next 1 ⟨{ sampleRing with writeIndex := 6 }, .writingOnce [1, 2, 3], 0⟩
      (.check noHangup) = some s' ∧ s'.call = .returned .EAGAIN (some 3) [] ∧ s'.moved = 0 ∧
      ¬ Honest s' := by
  refine ⟨_, rfl, by decide +kernel, by decide +kernel, fun hs => ?_⟩
  have hst := hs .EAGAIN (some 3) [] (by decide +kernel)
  exact absurd hst (by decide +kernel)

end RingBufferCounts
