import SalernosKernel.RingBuffer

/-! # The end of a unix stream

Two connected unix sockets: one sends and is destroyed, the other one receives with blocking calls
of `unix_socket_recv`. The lock of the ring is held from the test of the ring until the thread is on
`read.queue`; `unix_socket_destroy` notifies without it. -/
namespace UnixStream

open RingBuffer

inductive Sender where
  | connected
  | closing
  | destroyed
  deriving DecidableEq

/-- How far a receive is, with the lengths of the entries to come and the count so far. -/
inductive Pc where
  | returned (count : ℕ)
  | testing (lens : List ℕ) (count : ℕ)
  | parking (lens : List ℕ) (count : ℕ)
  | waiting (lens : List ℕ) (count : ℕ)
  | woken (lens : List ℕ) (count : ℕ)
  deriving DecidableEq

structure State where
  rb : Ring
  sender : Sender
  pc : Pc
  sent : List UInt8
  received : List UInt8

inductive Event where
  | send (buf : List UInt8)
  | hangUp
  | notifyAll
  | recv (lens : List ℕ)
  | test
  | park
  | resume
  deriving DecidableEq

def Pc.wake : Pc → Pc
  | .waiting lens count => .woken lens count
  | pc => pc

def Pc.locked : Pc → Bool
  | .parking .. => true
  | _ => false

def recvTop (lens : List ℕ) (count : ℕ) : Pc :=
  if lens = [] then .returned count else .testing lens count

/-- From a test of the loop of `kringbuffer_read_nolock` on; `unix_socket_rb_check_hangup` returns 0
for every read. -/
def test (s : State) (lens : List ℕ) (count : ℕ) : State :=
  match readTest 1 s.rb (lens.headD 0) true with
  | (rb, .returned _ stored dst, _) =>
    { s with
      rb, pc := recvTop lens.tail (count + stored.getD 0), received := s.received ++ dst }
  | _ => { s with pc := .parking lens count }

def next (s : State) : Event → Option State
  | .send buf =>
    let canWrite := min buf.length s.rb.availWrite.toNat
    if s.sender = .connected ∧ canWrite ≠ 0 ∧ s.pc.locked = false then
      some { s with
        rb := s.rb.put buf canWrite, sent := s.sent ++ buf.take canWrite, pc := s.pc.wake }
    else none
  | .hangUp => if s.sender = .connected then some { s with sender := .closing } else none
  | .notifyAll =>
    if s.sender = .closing then some { s with sender := .destroyed, pc := s.pc.wake } else none
  | .recv lens =>
    match s.pc with
    | .returned _ => some { s with pc := recvTop lens 0 }
    | _ => none
  | .test =>
    match s.pc with
    | .testing lens count => some (test s lens count)
    | _ => none
  | .park =>
    match s.pc with
    | .parking lens count => some { s with pc := .waiting lens count }
    | _ => none
  | .resume =>
    match s.pc with
    | .woken lens count => some { s with pc := .testing lens count }
    | _ => none

def start (rb : Ring) : State := ⟨rb, .connected, .returned 0, [], []⟩

def Pc.Blocked : Pc → Prop
  | .parking .. | .waiting .. => True
  | _ => False

/-- Once the sender is destroyed the ring is tested only while there is data in it, and the sender
does not notify between the test of an empty ring and the wait. -/
def Careful (s : State) : Event → Prop
  | .test => s.sender = .destroyed → s.rb.availRead.toNat ≠ 0
  | .notifyAll => s.pc.locked = false
  | _ => True

instance (s : State) : DecidablePred (Careful s) := fun e =>
  match e with
  | .test => inferInstanceAs (Decidable (_ → _))
  | .notifyAll => inferInstanceAs (Decidable (_ = _))
  | .send _ | .hangUp | .recv _ | .park | .resume => isTrue trivial

variable {s s' : State} {e : Event} {rb : Ring}

structure Invariant (s : State) : Prop where
  valid : Valid s.rb
  isEof : s.rb.isEof = false
  moved : s.sent = s.received ++ contents s.rb
  awake : s.sender = .destroyed → ¬ s.pc.Blocked

theorem wake_not_blocked {pc : Pc} (h : pc.locked = false) : ¬ pc.wake.Blocked := by
  cases pc with
  | parking lens count => cases h
  | _ => exact id

theorem recvTop_not_blocked (lens : List ℕ) (count : ℕ) : ¬ (recvTop lens count).Blocked := by
  rw [recvTop]
  split_ifs <;> exact id

theorem Invariant.test {lens : List ℕ} {count : ℕ} (h : Invariant s) (hok : Careful s .test) :
    Invariant (test s lens count) := by
  rw [UnixStream.test, readTest, h.isEof]
  by_cases hem : s.rb.availRead.toNat < 1
  · rw [if_pos ⟨hem, by decide⟩, if_pos rfl]
    exact ⟨h.valid, h.isEof, h.moved, fun hd => absurd (Nat.lt_one_iff.mp hem) (hok hd)⟩
  · rw [if_neg (fun hc => hem hc.1), readEnd, h.isEof, if_neg (by decide)]
    have hn := Nat.min_le_right (lens.headD 0) s.rb.availRead.toNat
    refine ⟨h.valid.get hn, h.isEof, ?_, fun _ => recvTop_not_blocked _ _⟩
    change s.sent = s.received ++ _ ++ contents _
    rw [h.moved, contents_get h.valid hn, List.append_assoc]

theorem Invariant.next (h : Invariant s) (hok : Careful s e) (hn : next s e = some s') :
    Invariant s' := by
  cases e with
  | send buf =>
    rw [next] at hn
    split_ifs at hn with hsn
    cases hn
    have hln := min_le_left buf.length s.rb.availWrite.toNat
    have hpt := effect_put h.valid hln (min_le_right _ _)
    refine ⟨hpt.valid, hpt.isEof.trans h.isEof, ?_, fun _ => wake_not_blocked hsn.2.2⟩
    change s.sent ++ _ = s.received ++ contents (s.rb.put buf _)
    rw [h.moved, List.append_assoc, hpt.moved]
    rfl
  | hangUp =>
    rw [next] at hn
    split_ifs at hn
    cases hn
    exact ⟨h.valid, h.isEof, h.moved, fun hd => by cases hd⟩
  | notifyAll =>
    rw [next] at hn
    split_ifs at hn
    cases hn
    exact ⟨h.valid, h.isEof, h.moved, fun _ => wake_not_blocked hok⟩
  | recv lens =>
    rw [next] at hn
    split at hn
    · cases hn
      exact ⟨h.valid, h.isEof, h.moved, fun _ => recvTop_not_blocked _ _⟩
    · cases hn
  | test =>
    rw [next] at hn
    split at hn
    · cases hn
      exact h.test hok
    · cases hn
  | park =>
    rw [next] at hn
    split at hn
    · next hpc =>
      cases hn
      refine ⟨h.valid, h.isEof, h.moved, fun hd => absurd ?_ (h.awake hd)⟩
      rw [hpc]
      trivial
    · cases hn
  | resume =>
    rw [next] at hn
    split at hn
    · cases hn
      exact ⟨h.valid, h.isEof, h.moved, fun _ => id⟩
    · cases hn

/-- All bytes arrive in order, and no receive is left blocked by a sender that was destroyed. -/
theorem stream_ends (hsize : ∃ k < 64, rb.bufferSize.toNat = 2 ^ k)
    (hindex : rb.readIndex = rb.writeIndex) (heof : rb.isEof = false)
    (h : Runs.Reaches next Careful (start rb) s) :
    s.sent = s.received ++ contents s.rb ∧ (s.sender = .destroyed → ¬ s.pc.Blocked) := by
  have hz : rb.availRead.toNat = 0 := by
    rw [Ring.availRead, hindex, BitVec.sub_self]
    rfl
  have hiv : Invariant s := by
    apply h.invariant Invariant
    · refine ⟨⟨hsize, ?_⟩, heof, ?_, fun hd => by cases hd⟩
      · change rb.availRead.toNat ≤ _
        omega
      · change [] = [] ++ contents rb
        rw [contents, hz]
        rfl
    · intro s e s' hs hok hn
      exact hs.next hok hn
  exact ⟨hiv.moved, hiv.awake⟩

/-- A byte is sent and received; the next receive waits, and waits again when the sender is gone. -/
theorem stream_does_not_end : ∃ s : State, Runs.Reaches next (fun _ _ => True) (start sampleRing) s ∧
    s.sender = .destroyed ∧ s.received = s.sent ∧ s.pc = .waiting [4] 0 := by
  have hrn : (Runs.run next (fun _ _ => True) (start sampleRing) [.send [7], .recv [4], .test,
      .recv [4], .test, .park, .hangUp, .notifyAll, .resume, .test, .park]).map
        (fun s => (s.sender, s.received, s.sent, s.pc)) =
      some (.destroyed, [7], [7], .waiting [4] 0) := by decide +kernel
  obtain ⟨s, hs, hed⟩ := Option.map_eq_some_iff.mp hrn
  simp only [Prod.mk.injEq] at hed
  obtain ⟨hsd, hrc, hst, hpc⟩ := hed
  exact ⟨s, Runs.run_reaches hs, hsd, hrc.trans hst.symm, hpc⟩

theorem stream_ends_received : ∃ s : State, s.received = [7, 8] ∧
    s.sent = s.received ++ contents s.rb ∧ (s.sender = .destroyed → ¬ s.pc.Blocked) := by
  have hrn : (Runs.run next Careful (start sampleRing) [.recv [4], .test, .park, .send [7, 8],
      .hangUp, .notifyAll, .resume, .test]).map State.received = some [7, 8] := by decide +kernel
  obtain ⟨s, hs, hrc⟩ := Option.map_eq_some_iff.mp hrn
  exact ⟨s, hrc, stream_ends ⟨3, by decide, rfl⟩ rfl rfl (Runs.run_reaches hs)⟩

end UnixStream
