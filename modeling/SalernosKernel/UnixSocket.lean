import SalernosKernel.Runs

/-! # Pointers between unix sockets

`com/ipc/socket/unix.c`, one operation after the other. Sockets have numbers that are not used again;
what was destroyed has no entry any more. The data in their buffers is left out. -/
namespace UnixSocket

open Function
open Option

inductive SocketState where
  | unbound
  | bound
  | connected
  | listening
  deriving DecidableEq

structure Socket (P : Type*) where
  state : SocketState
  peer : Option ℕ
  srvBinding : Option P
  srvAcceptq : List ℕ
  deriving DecidableEq

structure State (P : Type*) where
  sock : ℕ → Option (Socket P)
  count : ℕ
  server : P → Option ℕ

inductive Event (P : Type*) where
  | create
  | bind (a : ℕ) (path : P)
  | listen (a : ℕ)
  | connect (a : ℕ) (path : P)
  | accept (a : ℕ)
  | getpeername (a : ℕ)
  | send (a : ℕ)
  | recv (a : ℕ)
  | destroy (a : ℕ)
  deriving DecidableEq

section Code

variable {P : Type*} [DecidableEq P]

def State.set (s : State P) (a : ℕ) (x : Socket P) : State P :=
  { s with sock := update s.sock a (some x) }

def unixSocketAlloc : Socket P := ⟨.unbound, none, none, []⟩

def unixSocketBind (s : State P) (a : ℕ) (x : Socket P) (path : P) : State P :=
  -- `com_fs_vfs_create_any` fails on a path that is there
  if s.server path ≠ none then s
  else { s.set a { x with state := .bound, srvBinding := some path } with
    server := update s.server path (some a) }

def unixSocketListen (s : State P) (a : ℕ) (x : Socket P) : State P :=
  if x.state = .bound then s.set a { x with state := .listening } else s

/-- No result is an access through a pointer that is NULL or to a socket that was destroyed. -/
def unixSocketConnect (s : State P) (a : ℕ) (x : Socket P) (path : P) : Option (State P) :=
  if x.state ≠ .unbound then some s
  else
    match s.server path with
    | none => some s
    | some server => (s.sock server).map fun y =>
      if y.state ≠ .listening then s
      else
        let s := s.set s.count { (unixSocketAlloc : Socket P) with state := .connected, peer := some a }
        let s := s.set a { x with state := .connected, peer := some s.count }
        { s.set server { y with srvAcceptq := y.srvAcceptq ++ [s.count] } with count := s.count + 1 }

/-- A blocking call on an empty queue has no next state of its own; the others are not affected. -/
def unixSocketAccept (s : State P) (a : ℕ) (x : Socket P) : State P :=
  if x.state = .listening then s.set a { x with srvAcceptq := x.srvAcceptq.tail } else s

def unixSocketGetpeername (s : State P) (x : Socket P) : Option (State P) :=
  if x.state ≠ .connected then some s else (x.peer.bind s.sock).map fun _ => s

def unixSocketSend (s : State P) (x : Socket P) : Option (State P) :=
  if x.state ≠ .connected ∨ x.peer = none then some s else (x.peer.bind s.sock).map fun _ => s

def unixSocketDestroy (s : State P) (a : ℕ) (x : Socket P) : Option (State P) :=
  match x.peer with
  | none => some { s with sock := update s.sock a none }
  | some b => (s.sock b).map fun y =>
    let s := s.set b { y with peer := none }
    { s with sock := update s.sock a none }

def next (s : State P) : Event P → Option (State P)
  | .create => some { s.set s.count unixSocketAlloc with count := s.count + 1 }
  | .bind a path => (s.sock a).map fun x => unixSocketBind s a x path
  | .listen a => (s.sock a).map fun x => unixSocketListen s a x
  | .connect a path => (s.sock a).bind fun x => unixSocketConnect s a x path
  | .accept a => (s.sock a).map fun x => unixSocketAccept s a x
  | .getpeername a => (s.sock a).bind fun x => unixSocketGetpeername s x
  | .send a => (s.sock a).bind fun x => unixSocketSend s x
  | .recv a => (s.sock a).map fun _ => s
  | .destroy a => (s.sock a).bind fun x => unixSocketDestroy s a x

def Event.on : Event P → Option ℕ
  | .create => none
  | .bind a _ | .listen a | .connect a _ | .accept a | .getpeername a | .send a | .recv a
  | .destroy a => some a

def OnLive (s : State P) (e : Event P) : Prop := ∀ a ∈ e.on, (s.sock a).isSome
  deriving Decidable

/-- A socket that is destroyed was never bound, and a socket that is asked for its peer's name still
has a peer if it was connected. -/
def Careful (s : State P) : Event P → Prop
  | .destroy a => ∀ x ∈ s.sock a, x.srvBinding = none
  | .getpeername a => ∀ x ∈ s.sock a, x.state = .connected → x.peer ≠ none
  | _ => True

instance (s : State P) : DecidablePred (Careful s) := fun e =>
  match e with
  | .destroy a => inferInstanceAs (Decidable (∀ x ∈ s.sock a, x.srvBinding = none))
  | .getpeername a => inferInstanceAs (Decidable (∀ x ∈ s.sock a, x.state = .connected → x.peer ≠ none))
  | .create | .bind .. | .listen _ | .connect .. | .accept _ | .send _ | .recv _ => isTrue trivial

def start : State P := ⟨fun _ => none, 0, fun _ => none⟩

end Code

def Paired (f : ℕ → Option ℕ) : Prop := ∀ a b, f a = some b → f b = some a

theorem Paired.link {f : ℕ → Option ℕ} {a b : ℕ} (h : Paired f) (ha : f a = none) (hb : f b = none) :
    Paired (update (update f b (some a)) a (some b)) := by
  intro c d hc
  have := h c d
  grind

theorem Paired.unlink {f : ℕ → Option ℕ} {a b : ℕ} (h : Paired f) (hab : f a = some b) :
    Paired (update (update f b none) a none) := by
  intro c d hc
  have hcd := h c d
  have hba := h a b hab
  grind

section Pointers

variable {P : Type*} {s s' : State P} {a b : ℕ} {x y : Socket P} {path : P} {e : Event P}

def State.peerOf (s : State P) (a : ℕ) : Option ℕ := (s.sock a).bind Socket.peer

theorem peerOf_set (s : State P) (a : ℕ) (y : Socket P) :
    (s.set a y).peerOf = update s.peerOf a y.peer := by
  funext c
  by_cases hc : c = a
  · subst hc
    simp [State.peerOf, State.set]
  · simp [State.peerOf, State.set, hc]

theorem peerOf_drop (s : State P) (a : ℕ) :
    { s with sock := update s.sock a none }.peerOf = update s.peerOf a none := by
  funext c
  by_cases hc : c = a
  · subst hc
    simp [State.peerOf]
  · simp [State.peerOf, hc]

theorem peerOf_eq (ha : s.sock a = some x) : s.peerOf a = x.peer := by
  rw [State.peerOf, ha]
  rfl

structure Sound (s : State P) : Prop where
  unpaired : ∀ a x, s.sock a = some x → x.state = .unbound → x.peer = none
  bound : ∀ path a, s.server path = some a → ∃ x, s.sock a = some x ∧ x.srvBinding ≠ none
  fresh : ∀ a, s.count ≤ a → s.sock a = none

theorem Sound.lt_count (h : Sound s) (ha : s.sock a = some x) : a < s.count := by
  by_contra hle
  rw [h.fresh a (Nat.le_of_not_lt hle)] at ha
  cases ha

theorem unpaired_update {f : ℕ → Option (Socket P)}
    (h : ∀ a x, f a = some x → x.state = .unbound → x.peer = none) {v : Option (Socket P)}
    (hv : ∀ x, v = some x → x.state = .unbound → x.peer = none) (c : ℕ) (z : Socket P)
    (hz : update f a v c = some z) (hu : z.state = .unbound) : z.peer = none := by
  by_cases hc : c = a
  · subst hc
    rw [update_self] at hz
    exact hv z hz hu
  · rw [update_of_ne hc] at hz
    exact h c z hz hu

theorem Sound.set (h : Sound s) (ha : s.sock a = some x) (hy : y.state = .unbound → y.peer = none)
    (hbn : x.srvBinding ≠ none → y.srvBinding ≠ none) : Sound (s.set a y) := by
  refine ⟨unpaired_update h.unpaired fun z hz => some.inj hz ▸ hy, fun p c hp => ?_, fun c hc => ?_⟩
  · obtain ⟨z, hz, hzb⟩ := h.bound p c hp
    by_cases hc : c = a
    · subst hc
      obtain rfl := some.inj (ha.symm.trans hz)
      exact ⟨y, update_self .., hbn hzb⟩
    · exact ⟨z, (update_of_ne hc ..).trans hz, hzb⟩
  · have hne : c ≠ a := (lt_of_lt_of_le (h.lt_count ha) hc).ne'
    exact (update_of_ne hne ..).trans (h.fresh c hc)

theorem Sound.alloc (h : Sound s) (hy : y.state = .unbound → y.peer = none) :
    Sound { s.set s.count y with count := s.count + 1 } := by
  refine ⟨unpaired_update h.unpaired fun z hz => some.inj hz ▸ hy, fun p c hp => ?_, fun c hc => ?_⟩
  · obtain ⟨z, hz, hzb⟩ := h.bound p c hp
    exact ⟨z, (update_of_ne (h.lt_count hz).ne ..).trans hz, hzb⟩
  · have hne : c ≠ s.count := (Nat.lt_of_succ_le hc).ne'
    exact (update_of_ne hne ..).trans (h.fresh c (Nat.le_of_succ_le hc))

theorem Sound.drop (h : Sound s) (ha : s.sock a = some x) (hx : x.srvBinding = none) :
    Sound { s with sock := update s.sock a none } := by
  refine ⟨unpaired_update h.unpaired (fun z hz => by cases hz), fun p c hp => ?_, fun c hc => ?_⟩
  · obtain ⟨z, hz, hzb⟩ := h.bound p c hp
    have hne : c ≠ a := by
      rintro rfl
      obtain rfl := some.inj (ha.symm.trans hz)
      exact hzb hx
    exact ⟨z, (update_of_ne hne ..).trans hz, hzb⟩
  · by_cases hca : c = a
    · rw [hca]
      exact update_self ..
    · exact (update_of_ne hca ..).trans (h.fresh c hc)

structure Valid (s : State P) : Prop extends Sound s where
  paired : Paired s.peerOf

theorem Valid.set (h : Valid s) (ha : s.sock a = some x) (hpr : y.peer = x.peer)
    (hst : y.state ≠ .unbound ∨ y.state = x.state)
    (hbn : x.srvBinding ≠ none → y.srvBinding ≠ none) : Valid (s.set a y) := by
  refine ⟨h.toSound.set ha (fun hu => ?_) hbn, ?_⟩
  · have hx := hst.resolve_left (not_not.mpr hu)
    exact hpr.trans (h.unpaired a x ha (hx ▸ hu))
  · rw [peerOf_set, hpr, ← peerOf_eq ha, update_eq_self]
    exact h.paired

theorem Valid.bind [DecidableEq P] (h : Valid s) (ha : s.sock a = some x) (path : P) :
    Valid (unixSocketBind s a x path) := by
  rw [unixSocketBind]
  split_ifs
  · exact h
  · have hse := @Valid.set _ _ _ _ { x with state := .bound, srvBinding := some path } h ha rfl
      (.inl SocketState.noConfusion) (fun _ => some_ne_none _)
    refine ⟨⟨hse.unpaired, fun p c hp => ?_, hse.fresh⟩, hse.paired⟩
    change update s.server path (some a) p = some c at hp
    by_cases hpt : p = path
    · subst hpt
      rw [update_self] at hp
      cases hp
      exact ⟨_, update_self .., some_ne_none _⟩
    · rw [update_of_ne hpt] at hp
      exact hse.bound p c hp

theorem Valid.peer (h : Valid s) (ha : s.sock a = some x) (hb : x.peer = some b) :
    ∃ y, s.sock b = some y ∧ y.peer = some a := by
  have hbc := h.paired a b ((peerOf_eq ha).trans hb)
  exact bind_eq_some_iff.mp hbc

theorem Valid.connect (h : Valid s) (ha : s.sock a = some x) (path : P) :
    ∃ s', unixSocketConnect s a x path = some s' ∧ Valid s' := by
  rw [unixSocketConnect]
  split
  · exact ⟨s, rfl, h⟩
  · next hun =>
    split
    · exact ⟨s, rfl, h⟩
    · next server hserver =>
      obtain ⟨y, hy, -⟩ := h.bound path server hserver
      rw [hy, map_some]
      split_ifs with hls
      · exact ⟨s, rfl, h⟩
      · rw [not_not] at hun hls
        refine ⟨_, rfl, ?_⟩
        have hlt := h.lt_count ha
        have hne : server ≠ a := by
          rintro rfl
          obtain rfl := some.inj (ha.symm.trans hy)
          exact absurd (hun.symm.trans hls) SocketState.noConfusion
        have hnw := @Sound.alloc _ _ ⟨.connected, some a, none, []⟩ h.toSound SocketState.noConfusion
        have ha' := (update_of_ne hlt.ne (some ⟨.connected, some a, none, []⟩) s.sock).trans ha
        have hpi : Valid (State.set { s.set s.count ⟨.connected, some a, none, []⟩ with
            count := s.count + 1 } a { x with state := .connected, peer := some s.count }) := by
          refine ⟨hnw.set ha' SocketState.noConfusion id, ?_⟩
          rw [peerOf_set]
          change Paired (update (s.set s.count _).peerOf a (some s.count))
          rw [peerOf_set]
          apply h.paired.link
          · rw [peerOf_eq ha, h.unpaired a x ha hun]
          · rw [State.peerOf, h.fresh _ le_rfl]
            rfl
        refine @Valid.set _ _ server y { y with srvAcceptq := y.srvAcceptq ++ [s.count] } hpi ?_ rfl
          (.inr rfl) id
        exact (update_of_ne hne ..).trans
          ((update_of_ne (h.lt_count hy).ne ..).trans hy)

theorem Valid.destroy (h : Valid s) (ha : s.sock a = some x) (hx : x.srvBinding = none) :
    ∃ s', unixSocketDestroy s a x = some s' ∧ Valid s' := by
  rw [unixSocketDestroy]
  split
  · next hpr =>
    refine ⟨_, rfl, h.toSound.drop ha hx, ?_⟩
    rw [peerOf_drop, ← hpr, ← peerOf_eq ha, update_eq_self]
    exact h.paired
  · next b hpr =>
    obtain ⟨y, hy, -⟩ := h.peer ha hpr
    rw [hy]
    refine ⟨_, rfl, ?_, ?_⟩
    · have hse := @Sound.set _ _ _ _ { y with peer := none } h.toSound hy (fun _ => rfl) id
      by_cases hab : a = b
      · subst hab
        obtain rfl := some.inj (ha.symm.trans hy)
        exact hse.drop (update_self ..) hx
      · exact hse.drop ((update_of_ne hab ..).trans ha) hx
    · rw [peerOf_drop, peerOf_set]
      exact h.paired.unlink ((peerOf_eq ha).trans hpr)

theorem Valid.next [DecidableEq P] (h : Valid s) (hlv : OnLive s e) (hok : Careful s e) :
    ∃ s', next s e = some s' ∧ Valid s' := by
  have hsc : ∀ a ∈ e.on, ∃ x, s.sock a = some x := fun a ha => isSome_iff_exists.mp (hlv a ha)
  have hpr : ∀ {a x}, s.sock a = some x → x.peer ≠ none →
      ∃ s', (x.peer.bind s.sock).map (fun _ => s) = some s' ∧ Valid s' := by
    intro a x ha hx
    obtain ⟨b, hb⟩ := ne_none_iff_exists'.mp hx
    obtain ⟨y, hy, -⟩ := h.peer ha hb
    exact ⟨s, by rw [hb, bind_some, hy]; rfl, h⟩
  cases e with
  | create =>
    refine ⟨_, rfl, h.toSound.alloc fun _ => rfl, ?_⟩
    change Paired (s.set s.count _).peerOf
    have hno : s.peerOf s.count = none := by
      rw [State.peerOf, h.fresh _ le_rfl]
      rfl
    rw [peerOf_set, unixSocketAlloc, ← hno, update_eq_self]
    exact h.paired
  | bind a path =>
    obtain ⟨x, ha⟩ := hsc a rfl
    exact ⟨_, by rw [next, ha]; rfl, h.bind ha path⟩
  | listen a =>
    obtain ⟨x, ha⟩ := hsc a rfl
    refine ⟨unixSocketListen s a x, by rw [next, ha]; rfl, ?_⟩
    rw [unixSocketListen]
    split_ifs
    · exact h.set ha rfl (.inl SocketState.noConfusion) id
    · exact h
  | connect a path =>
    obtain ⟨x, ha⟩ := hsc a rfl
    rw [next, ha]
    exact h.connect ha path
  | accept a =>
    obtain ⟨x, ha⟩ := hsc a rfl
    refine ⟨unixSocketAccept s a x, by rw [next, ha]; rfl, ?_⟩
    rw [unixSocketAccept]
    split_ifs
    · exact h.set ha rfl (.inr rfl) id
    · exact h
  | getpeername a =>
    obtain ⟨x, ha⟩ := hsc a rfl
    rw [next, ha, bind_some, unixSocketGetpeername]
    split_ifs with hst
    · exact ⟨s, rfl, h⟩
    · exact hpr ha (hok x ha (not_not.mp hst))
  | send a =>
    obtain ⟨x, ha⟩ := hsc a rfl
    rw [next, ha, bind_some, unixSocketSend]
    split_ifs with hst
    · exact ⟨s, rfl, h⟩
    · exact hpr ha fun hno => hst (.inr hno)
  | recv a =>
    obtain ⟨x, ha⟩ := hsc a rfl
    exact ⟨s, by rw [next, ha]; rfl, h⟩
  | destroy a =>
    obtain ⟨x, ha⟩ := hsc a rfl
    rw [next, ha]
    exact h.destroy ha (hok x ha)

/-- Peers are there and point back, the servers of bindings are there, and no operation accesses a
socket through a pointer that is NULL or left over. -/
theorem pointers_valid [DecidableEq P]
    (h : Runs.Reaches next (fun s e => OnLive s e ∧ Careful s e) (start : State P) s) :
    (∀ a x b, s.sock a = some x → x.peer = some b → ∃ y, s.sock b = some y ∧ y.peer = some a) ∧
      (∀ path a, s.server path = some a → (s.sock a).isSome) ∧
      ∀ e, OnLive s e → Careful s e → next s e ≠ none := by
  have hvl : Valid s := by
    apply h.invariant Valid
    · exact ⟨⟨(fun _ _ hx => by cases hx), (fun _ _ hp => by cases hp), fun _ _ => rfl⟩,
        (fun _ _ hb => by cases hb)⟩
    · intro s e s' hs hok hn
      obtain ⟨s₁, hn₁, hs₁⟩ := hs.next hok.1 hok.2
      rwa [some.inj (hn.symm.trans hn₁)]
  refine ⟨fun a x b ha hb => hvl.peer ha hb, fun path a hp => ?_, fun e hlv hok => ?_⟩
  · obtain ⟨x, hx, -⟩ := hvl.bound path a hp
    rw [hx]
    rfl
  · obtain ⟨s', hn, -⟩ := hvl.next hlv hok
    rw [hn]
    exact some_ne_none _

end Pointers

def sampleRun : List (Event Unit) :=
  [.create, .bind 0 (), .listen 0, .create, .connect 1 (), .accept 0, .destroy 2, .destroy 0]

/-- `getpeername` of the client accesses NULL, and the binding's server is gone. -/
theorem pointers_not_valid : ∃ s : State Unit,
    Runs.Reaches next (fun s e => OnLive s e) start s ∧ OnLive s (.getpeername 1) ∧
      next s (.getpeername 1) = none ∧ s.server () = some 0 ∧ s.sock 0 = none := by
  obtain ⟨s, hs⟩ : ∃ s, Runs.run next OnLive start sampleRun = some s := isSome_iff_exists.mp rfl
  refine ⟨s, Runs.run_reaches hs, ?_⟩
  cases hs
  decide

theorem pointers_valid_connected : ∃ s : State Unit, s.count = 3 ∧
    (∀ a x b, s.sock a = some x → x.peer = some b → ∃ y, s.sock b = some y ∧ y.peer = some a) ∧
      (∀ path a, s.server path = some a → (s.sock a).isSome) ∧
      ∀ e, OnLive s e → Careful s e → next s e ≠ none := by
  obtain ⟨s, hs⟩ : ∃ s, Runs.run next (fun s e => OnLive s e ∧ Careful s e) start
    (sampleRun.take 7) = some s := isSome_iff_exists.mp rfl
  have hct : s.count = 3 := by
    cases hs
    rfl
  exact ⟨s, hct, pointers_valid (Runs.run_reaches hs)⟩

end UnixSocket
