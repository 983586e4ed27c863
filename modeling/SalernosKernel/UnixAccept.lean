import Mathlib.Data.List.Nodup
import Mathlib.Data.List.Range

/-! # Accepting connections

`unix_socket_connect` and `unix_socket_accept` of `com/ipc/socket/unix.c` on one listening socket, by
the sections of its lock. -/
namespace UnixAccept

open List

/-- `woken` have left the wait list and do not hold the lock yet; `accepted` has `*out_peer` of every
call that returned 0. -/
structure State (C T : Type) where
  connected : List C
  srvAcceptq : List ℕ
  srvAcceptwait : List T
  woken : List T
  count : ℕ
  accepted : List (Option ℕ)

inductive Event (C T : Type) where
  | connect (client : C)
  | accept (t : T) (nonblock : Bool)
  | resume (t : T)
  | interrupt (t : T)

variable {C T : Type} {s : State C T}

/-- From `TAILQ_FIRST` on, in or before the loop. -/
def removeHead (s : State C T) (empty : State C T) : State C T :=
  match s.srvAcceptq with
  | [] => empty
  | c :: q => { s with srvAcceptq := q, accepted := s.accepted ++ [some c] }

def wait (s : State C T) (t : T) : State C T :=
  { s with srvAcceptwait := s.srvAcceptwait ++ [t] }

def next [DecidableEq C] [DecidableEq T] (s : State C T) : Event C T → State C T
  | .connect client =>
    if client ∈ s.connected then s
    else ⟨client :: s.connected, s.srvAcceptq ++ [s.count], s.srvAcceptwait.tail,
      s.woken ++ s.srvAcceptwait.take 1, s.count + 1, s.accepted⟩
  | .accept t nonblock => removeHead s (if nonblock then s else wait s t)
  | .resume t =>
    if t ∈ s.woken then
      let s := { s with woken := s.woken.erase t }
      removeHead s (wait s t)
    else s
  | .interrupt t =>
    if t ∈ s.srvAcceptwait then
      { s with srvAcceptwait := s.srvAcceptwait.erase t, woken := t :: s.woken }
    else s

structure Invariant (s : State C T) : Prop where
  order : s.accepted ++ s.srvAcceptq.map some = (range s.count).map some
  count : s.count = s.connected.length
  woken : s.srvAcceptwait ≠ [] → s.srvAcceptq.length ≤ s.woken.length

theorem Invariant.removeHead {e : State C T} {w : List T} (h : Invariant s)
    (hw : s.srvAcceptwait ≠ [] → s.srvAcceptq.length ≤ w.length + 1)
    (he : s.srvAcceptq = [] → Invariant e) : Invariant (removeHead { s with woken := w } e) := by
  rw [UnixAccept.removeHead]
  split
  · exact he ‹_›
  · next c q hq =>
    rw [show s.srvAcceptq = c :: q from hq] at hw
    refine ⟨?_, h.count, fun hne => Nat.le_of_succ_le_succ (hw hne)⟩
    rw [← h.order, show s.srvAcceptq = c :: q from hq]
    simp

theorem Invariant.wait (h : Invariant s) (hq : s.srvAcceptq = []) (w : List T) (t : T) :
    Invariant (wait { s with woken := w } t) :=
  ⟨h.order, h.count, fun _ => (congrArg length hq).trans_le (Nat.zero_le _)⟩

theorem Invariant.next [DecidableEq C] [DecidableEq T] (h : Invariant s) (e : Event C T) :
    Invariant (next s e) := by
  cases e with
  | connect client =>
    rw [UnixAccept.next]
    split_ifs
    · exact h
    · refine ⟨by simp [range_succ, ← h.order], congrArg (· + 1) h.count, fun hne => ?_⟩
      have := h.woken
      cases hl : s.srvAcceptwait <;> simp_all
  | accept t nonblock =>
    refine h.removeHead (fun hne => (h.woken hne).trans (Nat.le_succ _)) fun hq => ?_
    cases nonblock
    · exact h.wait hq _ t
    · exact h
  | resume t =>
    rw [UnixAccept.next]
    split_ifs with ht
    · refine h.removeHead (fun hne => ?_) fun hq => h.wait hq _ t
      rw [length_erase_add_one ht]
      exact h.woken hne
    · exact h
  | interrupt t =>
    rw [UnixAccept.next]
    split_ifs with ht
    · exact ⟨h.order, h.count, fun _ => (h.woken (ne_nil_of_mem ht)).trans (Nat.le_succ _)⟩
    · exact h

theorem connected_removeHead (s : State C T) {e : State C T} (h : e.connected = s.connected) :
    (removeHead s e).connected = s.connected := by
  rw [removeHead]
  split
  · exact h
  · rfl

/-- A client is connected by its first `connect` and by nothing else. -/
theorem connected_next [DecidableEq C] [DecidableEq T] (s : State C T) (e : Event C T) :
    (next s e).connected = match e with
      | .connect client => s.connected.insert client
      | _ => s.connected := by
  cases e with
  | connect client =>
    rw [next]
    split_ifs with hc
    · exact (insert_of_mem hc).symm
    · exact (insert_of_not_mem hc).symm
  | accept t nonblock => exact connected_removeHead s (by cases nonblock <;> rfl)
  | resume t =>
    rw [next]
    split_ifs
    · exact connected_removeHead _ rfl
    · rfl
  | interrupt t =>
    rw [next]
    split_ifs <;> rfl

/-- The clients with a socket are those that connected, each once. -/
theorem connected_events [DecidableEq C] [DecidableEq T] (events : List (Event C T)) :
    let s := events.foldl next ⟨[], [], [], [], 0, []⟩
    s.connected.Nodup ∧ ∀ c, c ∈ s.connected ↔ Event.connect c ∈ events := by
  induction events using reverseRecOn with
  | nil => simp
  | append_singleton events e ih =>
    obtain ⟨hnodup, hmem⟩ := ih
    simp only [foldl_append, foldl_cons, foldl_nil, connected_next]
    cases e with
    | connect client =>
      refine ⟨Nodup.insert hnodup, fun c => ?_⟩
      simp [hmem, or_comm]
    | accept | resume | interrupt => exact ⟨hnodup, fun c => by simp [hmem]⟩

/-- Every client that connects gets one socket, these are returned in their order and no peer is
NULL: an accept, called or woken, returns the head of the queue if there is one. An acceptor that
waits beside a connection is not the only one. -/
theorem accepted_in_order [DecidableEq C] [DecidableEq T] (events : List (Event C T)) :
    let s := events.foldl next ⟨[], [], [], [], 0, []⟩
    Invariant s ∧ s.connected.Nodup ∧ (∀ c, c ∈ s.connected ↔ Event.connect c ∈ events) ∧
      (∀ c q, s.srvAcceptq = c :: q →
        (∀ t nonblock, next s (.accept t nonblock) =
          { s with srvAcceptq := q, accepted := s.accepted ++ [some c] }) ∧
        ∀ t ∈ s.woken, next s (.resume t) = { s with
          srvAcceptq := q, accepted := s.accepted ++ [some c], woken := s.woken.erase t }) ∧
      (s.srvAcceptq ≠ [] → s.srvAcceptwait ≠ [] → s.woken ≠ []) := by
  intro s
  have hs : Invariant s := events.foldlRecOn next ⟨rfl, rfl, fun h => absurd rfl h⟩
    fun s h e _ => h.next e
  obtain ⟨hnodup, hmem⟩ := connected_events events
  refine ⟨hs, hnodup, hmem, fun c q hq => ⟨fun t nonblock => ?_, fun t ht => ?_⟩,
    fun hq hw hk => hq ?_⟩
  · rw [next, removeHead, hq]
  · rw [next, if_pos ht]
    simp only [removeHead, hq]
  · have hle := hs.woken hw
    rw [hk] at hle
    exact length_eq_zero_iff.mp (Nat.le_zero.mp hle)

end UnixAccept
