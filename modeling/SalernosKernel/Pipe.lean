import SalernosKernel.RingBuffer

/-! # Pipes

`com/fs/pipefs.c`. The parties `t` are calls of `com_fs_pipefs_read` and `com_fs_pipefs_write`. A step
goes from one test of an inner loop to the next; the lock is kept there, so the cuts only add
interleavings. What the calls copy is recorded in the order of the copies. -/
namespace Pipe

open RingBuffer (Ring kmemcpy contents)
open Function
open List

def PIPE_BUF_SZ : ℕ := 4096

structure Node where
  buf : ℕ → UInt8
  read : BitVec 64
  write : BitVec 64
  readEnd : Bool
  writeEnd : Bool

namespace Node

variable (p : Node)

def diff : BitVec 64 := p.write - p.read

def avSpace : BitVec 64 := BitVec.ofNat 64 PIPE_BUF_SZ - p.diff

def put (buf : List UInt8) (writesz : ℕ) : Node :=
  let modidx := p.write.toNat % PIPE_BUF_SZ
  let left := PIPE_BUF_SZ - modidx
  let copied := kmemcpy p.buf modidx (buf.take (min writesz left))
  { p with
    buf := if left < writesz then kmemcpy copied 0 ((buf.drop left).take (writesz - left)) else copied
    write := p.write + BitVec.ofNat 64 writesz }

def get (readsz : ℕ) : List UInt8 × Node :=
  let modidx := p.read.toNat % PIPE_BUF_SZ
  let left := PIPE_BUF_SZ - modidx
  ((range' modidx (min readsz left)).map p.buf ++ (range (readsz - left)).map p.buf,
    { p with read := p.read + BitVec.ofNat 64 readsz })

def ring : Ring := ⟨p.buf, BitVec.ofNat 64 PIPE_BUF_SZ, p.write, p.read, false⟩

end Node

inductive Request where
  | read (buflen : ℕ)
  | write (buf : List UInt8)

inductive Ret where
  | ok
  | EINTR
  deriving DecidableEq

inductive Call where
  | idle
  | reading (left count : ℕ)
  | writing (rest : List UInt8) (reqSpace count : ℕ)
  | returned (ret : Ret) (count : ℕ)
  deriving DecidableEq

inductive Phase where
  | running
  | waiting
  | woken
  deriving DecidableEq

structure State (T : Type*) where
  node : Node
  readers : List T
  writers : List T
  phase : T → Phase
  call : T → Call
  written : List (T × List UInt8)
  taken : List (T × List UInt8)

inductive Event (T : Type*) where
  | enter (t : T)
  | step (t : T)
  /-- On from a wait, with what `com_ipc_signal_check` finds. -/
  | resume (t : T) (signal : Bool)
  | interrupt (t : T)
  | closeRead
  | closeWrite

section Steps

variable {T : Type*} [DecidableEq T]

namespace State

variable (s : State T)

def setCall (t : T) (call : Call) : State T := { s with call := update s.call t call }

def setPhase (t : T) (phase : Phase) : State T := { s with phase := update s.phase t phase }

def wakeFirst (q : List T) (phase : T → Phase) : T → Phase :=
  match q with
  | [] => phase
  | t :: _ => update phase t .woken

def notifyReaders : State T :=
  { s with readers := s.readers.tail, phase := wakeFirst s.readers s.phase }

def notifyWriters : State T :=
  { s with writers := s.writers.tail, phase := wakeFirst s.writers s.phase }

end State

def readTop (left count : ℕ) : Call := if left = 0 then .returned .ok count else .reading left count

def writeTop (rest : List UInt8) (reqSpace count : ℕ) : Call :=
  if rest = [] then .returned .ok count else .writing rest reqSpace count

def enter : Request → Call
  | .read buflen => readTop buflen 0
  | .write buf => writeTop buf (if PIPE_BUF_SZ < buf.length then 1 else buf.length) 0

def readStep (s : State T) (t : T) (left count : ℕ) : State T :=
  if s.node.write = s.node.read ∧ s.node.writeEnd then
    { s with readers := s.readers ++ [t] }.setPhase t .waiting
  else
    let readsz := min left s.node.diff.toNat
    let r := s.node.get readsz
    let s := { s with node := r.2, taken := s.taken ++ [(t, r.1)] }
    if s.node.writeEnd then
      (s.setCall t (readTop (left - readsz) (count + readsz))).notifyWriters
    else s.setCall t (.returned .ok (count + readsz))

def writeStep (s : State T) (t : T) (rest : List UInt8) (reqSpace count : ℕ) : State T :=
  if s.node.avSpace.toNat < reqSpace then
    { s with writers := s.writers ++ [t] }.setPhase t .waiting
  else
    let writesz := min rest.length s.node.avSpace.toNat
    let s := { s with
      node := s.node.put rest writesz, written := s.written ++ [(t, rest.take writesz)] }
    (s.setCall t (writeTop (rest.drop writesz) reqSpace (count + writesz))).notifyReaders

def interrupted : Call → Call
  | .reading _ count | .writing _ _ count => .returned (if count = 0 then .EINTR else .ok) count
  | call => call

def next (request : T → Request) (s : State T) : Event T → Option (State T)
  | .enter t => if s.call t = .idle then some (s.setCall t (enter (request t))) else none
  | .step t =>
    match s.phase t, s.call t with
    | .running, .reading left count => some (readStep s t left count)
    | .running, .writing rest reqSpace count => some (writeStep s t rest reqSpace count)
    | _, _ => none
  | .resume t signal =>
    if s.phase t = .woken then
      some ((if signal then s.setCall t (interrupted (s.call t)) else s).setPhase t .running)
    else none
  | .interrupt t =>
    if s.phase t = .waiting then
      some ({ s with readers := s.readers.erase t, writers := s.writers.erase t }.setPhase t .woken)
    else none
  | .closeRead =>
    if s.node.readEnd then some { s with node := { s.node with readEnd := false } }.notifyWriters
    else none
  | .closeWrite =>
    if s.node.writeEnd then some { s with node := { s.node with writeEnd := false } }.notifyReaders
    else none

def start (node : Node) : State T := ⟨node, [], [], fun _ => .running, fun _ => .idle, [], []⟩

def entries (log : List (T × List UInt8)) (t : T) : List (List UInt8) :=
  (log.filter fun c => c.1 = t).map Prod.snd

end Steps

def bytes {T : Type*} (log : List (T × List UInt8)) : List UInt8 := log.flatMap Prod.snd

theorem bytes_append_own {T : Type*} (log : List (T × List UInt8)) (t : T) (xs : List (List UInt8)) :
    bytes (log ++ xs.map fun x => (t, x)) = bytes log ++ xs.flatten := by
  simp [bytes, flatMap_def, comp_def]

section Ring

variable {p : Node}

theorem ring_put (buf : List UInt8) (n : ℕ) : (p.put buf n).ring = p.ring.put buf n := by
  have hmd := @RingBuffer.kmodFast_toNat p.write (BitVec.ofNat 64 PIPE_BUF_SZ)
    ⟨12, by decide, by decide⟩
  simp only [Node.put, Node.ring, Ring.put, hmd]
  rfl

theorem get_fst (n : ℕ) : (p.get n).1 = (p.ring.get n).1 := by
  have hmd := @RingBuffer.kmodFast_toNat p.read (BitVec.ofNat 64 PIPE_BUF_SZ)
    ⟨12, by decide, by decide⟩
  simp only [Node.get, Node.ring, Ring.get, hmd]
  rfl

theorem length_contents (rb : Ring) : (contents rb).length = rb.availRead.toNat := by
  rw [contents, length_map, length_range]

theorem length_get (h : RingBuffer.Valid p.ring) {n : ℕ} (hn : n ≤ p.diff.toNat) :
    (p.get n).1.length = n := by
  have hln := congrArg length (RingBuffer.contents_get h hn)
  rw [length_append, length_contents, length_contents, RingBuffer.availRead_get_toNat hn] at hln
  rw [get_fst]
  have : n ≤ p.ring.availRead.toNat := hn
  omega

end Ring

section Data

variable {T : Type*} [DecidableEq T] {request : T → Request} {s s' : State T} {t u : T}

theorem entries_append (log log' : List (T × List UInt8)) (t : T) :
    entries (log ++ log') t = entries log t ++ entries log' t := by
  simp [entries]

theorem entries_own (t : T) (xs : List (List UInt8)) : entries (xs.map fun x => (t, x)) t = xs := by
  induction xs with
  | nil => rfl
  | cons x xs ih => simpa [entries] using ih

theorem entries_of_ne (h : u ≠ t) (xs : List (List UInt8)) :
    entries (xs.map fun x => (t, x)) u = [] := by
  simp [entries, h.symm]

def Right (request : Request) (call : Call) (written taken : List (List UInt8)) : Prop :=
  match request, call with
  | _, .idle => written = [] ∧ taken = []
  | .read _, .reading _ count => count = taken.flatten.length
  | .read _, .returned _ count => count = taken.flatten.length
  | .write buf, .writing rest reqSpace count =>
    written.flatten ++ rest = buf ∧ count = written.flatten.length ∧
      (buf.length ≤ PIPE_BUF_SZ → written = [] ∧ reqSpace = buf.length)
  | .write buf, .returned ret count => count = written.flatten.length ∧
    (buf.length ≤ PIPE_BUF_SZ → buf ≠ [] → ret = .ok → written = [buf])
  | _, _ => False

structure Invariant (request : T → Request) (s : State T) : Prop where
  valid : RingBuffer.Valid s.node.ring
  fifo : bytes s.written = bytes s.taken ++ contents s.node.ring
  calls : ∀ t, Right (request t) (s.call t) (entries s.written t) (entries s.taken t)

variable {call : Call}

theorem Invariant.act (h : Invariant request s) {w r : List (List UInt8)}
    (hcl : s'.call = update s.call t call)
    (hw : s'.written = s.written ++ w.map fun x => (t, x))
    (hr : s'.taken = s.taken ++ r.map fun x => (t, x))
    (hef : RingBuffer.Effect s.node.ring s'.node.ring w.flatten r.flatten)
    (hrg : Right (request t) call (entries s.written t ++ w) (entries s.taken t ++ r)) :
    Invariant request s' := by
  refine ⟨hef.valid, ?_, fun u => ?_⟩
  · rw [hw, hr, bytes_append_own, bytes_append_own, h.fifo, append_assoc, hef.moved, append_assoc]
  · rw [hcl, hw, hr, entries_append, entries_append]
    by_cases hu : u = t
    · subst hu
      rw [update_self, entries_own, entries_own]
      exact hrg
    · rw [update_of_ne hu, entries_of_ne hu, entries_of_ne hu, append_nil, append_nil]
      exact h.calls u

theorem Invariant.congr (h : Invariant request s) (hrn : s'.node.ring = s.node.ring)
    (hcl : s'.call = s.call) (hwr : s'.written = s.written) (htk : s'.taken = s.taken) :
    Invariant request s' := by
  refine ⟨hrn ▸ h.valid, ?_, ?_⟩
  · rw [hwr, htk, hrn]
    exact h.fifo
  · rw [hwr, htk, hcl]
    exact h.calls

theorem Invariant.setCall (h : Invariant request s)
    (hrg : Right (request t) call (entries s.written t) (entries s.taken t)) :
    Invariant request (s.setCall t call) := by
  refine h.act (w := []) (r := []) rfl (append_nil _).symm
    (append_nil _).symm (.refl h.valid) ?_
  rwa [append_nil, append_nil]

theorem right_enter (r : Request) : Right r (enter r) [] [] := by
  cases r with
  | read buflen =>
    rw [enter, readTop]
    split <;> rfl
  | write buf =>
    rw [enter, writeTop]
    split
    · exact ⟨rfl, fun _ hne => absurd ‹buf = []› hne⟩
    · exact ⟨rfl, rfl, fun hle => ⟨rfl, if_neg (not_lt.mpr hle)⟩⟩

variable {count : ℕ}

section

variable (h : Invariant request s)

include h

theorem Invariant.readStep {left : ℕ}
    (ht : s.call t = .reading left count) : Invariant request (readStep s t left count) := by
  have hn := min_le_right left s.node.diff.toNat
  have hln := length_get h.valid hn
  have hcl := h.calls t
  have hef : RingBuffer.Effect s.node.ring (s.node.get (min left s.node.diff.toNat)).2.ring [].flatten
      [(s.node.get (min left s.node.diff.toNat)).1].flatten := by
    refine ⟨h.valid.get hn, rfl, rfl, ?_⟩
    rw [flatten_nil, append_nil, flatten_singleton, get_fst]
    exact RingBuffer.contents_get h.valid hn
  rw [ht] at hcl
  rw [Pipe.readStep]
  cases hre : request t with
  | write buf =>
    rw [hre] at hcl
    exact hcl.elim
  | read buflen =>
    rw [hre] at hcl
    have hct : count + min left s.node.diff.toNat = (entries s.taken t ++
        [(s.node.get (min left s.node.diff.toNat)).1]).flatten.length := by
      rw [flatten_append, length_append, flatten_singleton, hln]
      exact congrArg (· + _) hcl
    split
    · exact h.congr rfl rfl rfl rfl
    · dsimp only
      split
      · refine h.act (w := []) rfl (append_nil _).symm rfl hef ?_
        rw [hre, readTop]
        split <;> exact hct
      · refine h.act (w := []) rfl (append_nil _).symm rfl hef ?_
        rw [hre]
        exact hct

theorem Invariant.writeStep {rest : List UInt8} {reqSpace : ℕ}
    (ht : s.call t = .writing rest reqSpace count) :
    Invariant request (writeStep s t rest reqSpace count) := by
  have hcl := h.calls t
  rw [ht] at hcl
  rw [Pipe.writeStep]
  cases hre : request t with
  | read buflen =>
    rw [hre] at hcl
    exact hcl.elim
  | write buf =>
    rw [hre] at hcl
    obtain ⟨hbf, hct, hsm⟩ := hcl
    split_ifs with hsp
    · exact h.congr rfl rfl rfl rfl
    · have hln := min_le_left rest.length s.node.avSpace.toNat
      have hef := RingBuffer.effect_put h.valid hln (min_le_right _ _)
      rw [← ring_put, ← flatten_singleton (l := rest.take _)] at hef
      refine h.act (r := []) rfl rfl (append_nil _).symm hef ?_
      have hmv : (entries s.written t ++
          [rest.take (min rest.length s.node.avSpace.toNat)]).flatten =
          (entries s.written t).flatten ++ rest.take (min rest.length s.node.avSpace.toNat) := by
        simp
      have hal : buf.length ≤ PIPE_BUF_SZ → entries s.written t = [] ∧ rest = buf ∧
          min rest.length s.node.avSpace.toNat = rest.length := by
        intro hle
        obtain ⟨hno, hrq⟩ := hsm hle
        rw [hno] at hbf
        have hrs : rest = buf := hbf
        refine ⟨hno, hrs, ?_⟩
        rw [hrs]
        omega
      rw [hre, writeTop]
      split
      · refine ⟨?_, fun hle _ _ => ?_⟩
        · rw [hmv, length_append, length_take, min_eq_left hln, hct]
        · obtain ⟨hno, hrs, hmn⟩ := hal hle
          rw [hno, hmn, take_length, hrs]
          rfl
      · refine ⟨?_, ?_, fun hle => ?_⟩
        · rw [hmv, append_assoc, take_append_drop, hbf]
        · rw [hmv, length_append, length_take, min_eq_left hln, hct]
        · obtain ⟨-, -, hmn⟩ := hal hle
          exact absurd (drop_eq_nil_of_le hmn.ge) ‹_›

theorem Invariant.interrupted :
    Invariant request (s.setCall t (interrupted (s.call t))) := by
  apply h.setCall
  have hcl := h.calls t
  revert hcl
  cases request t with
  | read buflen =>
    cases s.call t with
    | writing rest reqSpace count => exact False.elim
    | _ => exact id
  | write buf =>
    cases s.call t with
    | reading left count => exact False.elim
    | writing rest reqSpace count =>
      rintro ⟨-, hct, hsm⟩
      refine ⟨hct, fun hle _ hrt => ?_⟩
      rw [hct, (hsm hle).1] at hrt
      cases hrt
    | _ => exact id

theorem Invariant.step {e : Event T} (hn : next request s e = some s') :
    Invariant request s' := by
  cases e with
  | enter t =>
    rw [next] at hn
    split_ifs at hn with hid
    cases hn
    have hcl := h.calls t
    rw [hid, Right] at hcl
    apply h.setCall
    rw [hcl.1, hcl.2]
    exact right_enter _
  | step t =>
    rw [next] at hn
    split at hn
    · cases hn
      exact h.readStep ‹_›
    · cases hn
      exact h.writeStep ‹_›
    · cases hn
  | resume t signal =>
    rw [next] at hn
    split_ifs at hn
    · cases hn
      exact h.interrupted.congr rfl rfl rfl rfl
    · cases hn
      exact h.congr rfl rfl rfl rfl
  | interrupt t | closeRead | closeWrite =>
    rw [next] at hn
    split_ifs at hn
    cases hn
    exact h.congr rfl rfl rfl rfl

end

def Event.isCall : Event T → Bool
  | .closeRead | .closeWrite => false
  | _ => true

def moved (request : T → Request) (s : State T) (t : T) : List (List UInt8) :=
  match request t with
  | .read _ => entries s.taken t
  | .write _ => entries s.written t

/-- A pipe is a bounded queue of bytes, small writes stay in one piece, and the counts are those of
the bytes that were moved. -/
theorem pipe_intact (request : T → Request) {node : Node} (hempty : node.read = node.write)
    {s : State T} (h : Runs.Reaches (next request) (fun _ e => e.isCall) (start node) s) :
    s.node.diff.toNat ≤ PIPE_BUF_SZ ∧ bytes s.taken <+: bytes s.written ∧
      (∀ t buf count, request t = .write buf → buf.length ≤ PIPE_BUF_SZ → buf ≠ [] →
        s.call t = .returned .ok count → entries s.written t = [buf]) ∧
      ∀ t ret count, s.call t = .returned ret count → count = (moved request s t).flatten.length := by
  have hz : node.ring.availRead.toNat = 0 := by
    change (node.write - node.read).toNat = 0
    rw [hempty, BitVec.sub_self]
    rfl
  have hiv : Invariant request s := by
    apply h.invariant (Invariant request)
    · refine ⟨⟨⟨12, by decide, rfl⟩, hz.trans_le (Nat.zero_le _)⟩, ?_, fun t => ⟨rfl, rfl⟩⟩
      change [] = [] ++ contents node.ring
      rw [contents, hz]
      rfl
    · intro s e s' hs _ hn
      exact hs.step hn
  refine ⟨hiv.valid.bounded, ?_, fun t buf count hre hle hne ht => ?_, fun t ret count ht => ?_⟩
  · rw [hiv.fifo]
    exact prefix_append _ _
  · have hcl := hiv.calls t
    rw [hre, ht] at hcl
    exact hcl.2 hle hne rfl
  · have hcl := hiv.calls t
    rw [ht] at hcl
    rw [moved]
    revert hcl
    cases request t with
    | read buflen => exact id
    | write buf => exact And.left

end Data

def sampleNode : Node := ⟨fun _ => 0, 0xfffffffffffffffd, 0xfffffffffffffffd, true, true⟩

def sampleRequest : Fin 2 → Request
  | 0 => .read 4
  | 1 => .write [1, 2, 3, 4, 5]

theorem pipe_intact_wraps : ∃ s : State (Fin 2), s.call 0 = .returned .ok 4 ∧
    s.node.diff.toNat ≤ PIPE_BUF_SZ ∧ bytes s.taken <+: bytes s.written ∧
      (∀ t buf count, sampleRequest t = .write buf → buf.length ≤ PIPE_BUF_SZ → buf ≠ [] →
        s.call t = .returned .ok count → entries s.written t = [buf]) ∧
      ∀ t ret count, s.call t = .returned ret count →
        count = (moved sampleRequest s t).flatten.length := by
  have hru : (Runs.run (next sampleRequest) (fun _ e => e.isCall) (start sampleNode)
      [.enter 0, .step 0, .enter 1, .step 1, .resume 0 false, .step 0]).map (fun s => s.call 0) =
      some (.returned .ok 4) := by decide +kernel
  obtain ⟨s, hs, hcl⟩ := Option.map_eq_some_iff.mp hru
  exact ⟨s, hcl, pipe_intact sampleRequest rfl (Runs.run_reaches hs)⟩

section HangUp

variable {T : Type*} [DecidableEq T] {request : T → Request} {s s' : State T} {t u : T}

def ReaderHangs (s : State T) : Prop := s.node.writeEnd = false ∧ s.readers ≠ [] ∧
  ∀ t left count, s.call t = .reading left count → s.phase t ≠ .woken

def WriterHangs (s : State T) : Prop := s.node.readEnd = false ∧ s.writers ≠ [] ∧
  ∀ t rest reqSpace count, s.call t = .writing rest reqSpace count → s.phase t ≠ .woken

/-- A read that copies finds all it asks for, and a write without a read end finds room. -/
def Finds (p : Node) : Call → Prop
  | .reading left _ => p.write = p.read ∨ p.writeEnd = false ∨ left ≤ p.diff.toNat
  | .writing _ reqSpace _ => p.readEnd = true ∨ reqSpace ≤ p.avSpace.toNat
  | _ => True

instance (p : Node) : DecidablePred (Finds p) := fun call =>
  match call with
  | .reading .. => inferInstanceAs (Decidable (_ ∨ _ ∨ _))
  | .writing .. => inferInstanceAs (Decidable (_ ∨ _))
  | .idle | .returned .. => inferInstanceAs (Decidable True)

/-- At most one waits at the other end of what is closed. -/
def Careful (s : State T) : Event T → Prop
  | .step t => Finds s.node (s.call t)
  | .closeRead => s.writers.length ≤ 1
  | .closeWrite => s.readers.length ≤ 1
  | _ => True

instance (s : State T) : DecidablePred (Careful s) := fun e =>
  match e with
  | .step _ => inferInstanceAs (Decidable (Finds _ _))
  | .closeRead | .closeWrite => inferInstanceAs (Decidable (_ ≤ _))
  | .enter _ | .resume .. | .interrupt _ => inferInstanceAs (Decidable True)

def Uncopied (call : T → Call) : Prop := ∀ t left count, call t = .reading left count → count = 0

structure Served (s : State T) : Prop where
  readers : s.node.writeEnd = false → s.readers = []
  writers : s.node.readEnd = false → s.writers = []
  uncopied : Uncopied s.call

theorem Uncopied.update {call : T → Call} {c : Call} (h : Uncopied call)
    (hc : ∀ left count, c = .reading left count → count = 0) :
    Uncopied (update call t c) := by
  intro u left count hu
  by_cases hut : u = t
  · subst hut
    rw [update_self] at hu
    exact hc left count hu
  · rw [update_of_ne hut] at hu
    exact h u left count hu

variable {count count' left reqSpace : ℕ}

theorem readTop_uncopied {left' : ℕ} (h : left = 0 ∨ count = 0)
    (hc : readTop left count = .reading left' count') : count' = 0 := by
  rw [readTop] at hc
  split_ifs at hc
  · injection hc
    omega

variable {rest : List UInt8}

theorem writeTop_ne : writeTop rest reqSpace count ≠ .reading left count' := by
  rw [writeTop]
  split_ifs <;> exact Call.noConfusion

omit [DecidableEq T] in
theorem tail_eq_nil {q : List T} (h : q.length ≤ 1) : q.tail = [] := by
  apply eq_nil_of_length_eq_zero
  rw [length_tail]
  omega

theorem Served.readStep (h : Served s) (hok : Careful s (.step t))
    (ht : s.call t = .reading left count) : Served (readStep s t left count) := by
  rw [Careful, ht, Finds] at hok
  rw [Pipe.readStep]
  split
  · next hwt =>
    exact ⟨fun hed => absurd (hwt.2.symm.trans hed) (by decide), h.writers, h.uncopied⟩
  · next hwt =>
    dsimp only
    split
    · next hop =>
      change s.node.writeEnd = true at hop
      refine ⟨h.readers, fun hed => ?_, h.uncopied.update fun left' count' hc => ?_⟩
      · exact congrArg List.tail (h.writers hed)
      · apply readTop_uncopied (.inl _) hc
        simp only [hop, and_true] at hwt
        simp [hwt, hop] at hok
        omega
    · exact ⟨h.readers, h.writers, h.uncopied.update fun _ _ hc => by cases hc⟩

theorem Served.writeStep (h : Served s)
    (hok : Careful s (.step t)) (ht : s.call t = .writing rest reqSpace count) :
    Served (writeStep s t rest reqSpace count) := by
  rw [Careful, ht, Finds] at hok
  rw [Pipe.writeStep]
  split_ifs with hwt
  · refine ⟨h.readers, fun hed => ?_, h.uncopied⟩
    have hop := hok.resolve_right (not_le.mpr hwt)
    exact absurd (hop.symm.trans hed) (by decide)
  · refine ⟨fun hed => ?_, h.writers, h.uncopied.update fun _ _ hc => absurd hc writeTop_ne⟩
    exact congrArg List.tail (h.readers hed)

theorem interrupted_ne (c : Call) (left count : ℕ) : interrupted c ≠ .reading left count := by
  cases c <;> exact Call.noConfusion

theorem Served.step {e : Event T} (h : Served s) (hok : Careful s e)
    (hn : next request s e = some s') : Served s' := by
  cases e with
  | enter t =>
    rw [next] at hn
    split_ifs at hn
    cases hn
    refine ⟨h.readers, h.writers, h.uncopied.update fun left count hc => ?_⟩
    cases hre : request t with
    | read buflen =>
      rw [hre] at hc
      exact readTop_uncopied (.inr rfl) hc
    | write buf =>
      rw [hre] at hc
      exact absurd hc writeTop_ne
  | step t =>
    rw [next] at hn
    split at hn
    · cases hn
      exact h.readStep hok ‹_›
    · cases hn
      exact h.writeStep hok ‹_›
    · cases hn
  | resume t signal =>
    rw [next] at hn
    split_ifs at hn
    · cases hn
      exact ⟨h.readers, h.writers, h.uncopied.update fun _ _ hc => absurd hc (interrupted_ne _ _ _)⟩
    · cases hn
      exact ⟨h.readers, h.writers, h.uncopied⟩
  | interrupt t =>
    rw [next] at hn
    split_ifs at hn
    cases hn
    refine ⟨fun hed => ?_, fun hed => ?_, h.uncopied⟩
    · rw [h.readers hed]
      rfl
    · rw [h.writers hed]
      rfl
  | closeRead =>
    rw [next] at hn
    split_ifs at hn
    cases hn
    exact ⟨h.readers, fun _ => tail_eq_nil hok, h.uncopied⟩
  | closeWrite =>
    rw [next] at hn
    split_ifs at hn
    cases hn
    exact ⟨fun _ => tail_eq_nil hok, h.writers, h.uncopied⟩

/-- Nobody is left waiting at a pipe whose other end is closed, and no read waits once it has bytes. -/
theorem pipe_hangup (request : T → Request) {node : Node}
    (h : Runs.Reaches (next request) Careful (start node) s) :
    ¬ ReaderHangs s ∧ ¬ WriterHangs s ∧
      ∀ t left count, s.call t = .reading left count → s.phase t = .waiting → count = 0 := by
  have hsr : Served s := by
    apply h.invariant Served
    · exact ⟨fun _ => rfl, fun _ => rfl, fun t left count ht => by cases ht⟩
    · intro s e s' hs hok hn
      exact hs.step hok hn
  refine ⟨fun hhn => ?_, fun hhn => ?_, fun t left count ht _ => hsr.uncopied t left count ht⟩
  · exact hhn.2.1 (hsr.readers hhn.1)
  · exact hhn.2.1 (hsr.writers hhn.1)

end HangUp

/-- Two readers wait when the write end is closed, and the one that is woken returns. -/
theorem pipe_reader_hangs : ∃ s : State (Fin 2),
    Runs.Reaches (next fun _ => .read 4) (fun _ _ => True) (start sampleNode) s ∧ ReaderHangs s := by
  have hru : (Runs.run (next fun _ : Fin 2 => .read 4) (fun _ _ => True) (start sampleNode)
      [.enter 0, .step 0, .enter 1, .step 1, .closeWrite, .resume 0 false, .step 0]).map
        (fun s => (s.node.writeEnd, s.readers, s.phase 0, s.phase 1)) =
      some (false, [1], .running, .waiting) := by decide +kernel
  obtain ⟨s, hs, hed⟩ := Option.map_eq_some_iff.mp hru
  simp only [Prod.mk.injEq] at hed
  obtain ⟨hwrt, hrd, hfs, hsc⟩ := hed
  refine ⟨s, Runs.run_reaches hs, hwrt, by rw [hrd]; decide, fun t left count _ hwoken => ?_⟩
  match t with
  | 0 => exact absurd (hfs.symm.trans hwoken) (by decide)
  | 1 => exact absurd (hsc.symm.trans hwoken) (by decide)

theorem pipe_hangup_one_reader : ∃ s : State (Fin 1), s.call 0 = .returned .ok 0 ∧
    ¬ ReaderHangs s ∧ ¬ WriterHangs s ∧
      ∀ t left count, s.call t = .reading left count → s.phase t = .waiting → count = 0 := by
  have hru : (Runs.run (next fun _ : Fin 1 => .read 4) Careful (start sampleNode)
      [.enter 0, .step 0, .closeWrite, .resume 0 false, .step 0]).map (fun s => s.call 0) =
      some (.returned .ok 0) := by decide +kernel
  obtain ⟨s, hs, hcl⟩ := Option.map_eq_some_iff.mp hru
  exact ⟨s, hcl, pipe_hangup _ (Runs.run_reaches hs)⟩

end Pipe
