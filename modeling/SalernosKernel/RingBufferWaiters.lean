import Mathlib.Data.Fintype.Basic
import SalernosKernel.RingBuffer

/-! # Waiting at the ring buffer

Any number of blocking readers and writers with `atomic_size` one. A step is a critical section of
one thread, up to its wait or its return. The queues and the space or data they wait for are indexed
by the side: `true` is the reading one. -/
namespace RingBufferWaiters

open RingBuffer Option
open Function

inductive Job where
  | write (buf : List UInt8)
  | read (nbytes : ℕ)
  deriving DecidableEq

def Job.request : Job → Request
  | .write buf => .write buf true
  | .read nbytes => .read nbytes true

inductive Status where
  | finished
  | entering (job : Job)
  | waiting (call : Call)
  | woken (call : Call)
  deriving DecidableEq

structure State (T : Type*) where
  rb : Ring
  status : T → Status
  queue : Bool → List T

inductive Event (T : Type*) where
  | start (t : T) (job : Job)
  | run (t : T)

def avail (rb : Ring) : Bool → ℕ
  | true => rb.availRead.toNat
  | false => rb.availWrite.toNat

def settle (r : Ring × Call × Bool) : Ring × Call × Bool :=
  match step 1 r.1 noHangup r.2.1 with
  | some r' => (r'.1, r'.2.1, r.2.2 || r'.2.2)
  | none => r

def side : Call → Bool
  | .readWaiting _ => true
  | .reading _ _ => true
  | _ => false

def demand : Call → ℕ
  | .readWaiting nbytes => nbytes
  | .writeWaiting buf _ _ => buf.length
  | _ => 0

def Status.wake : Status → Status
  | .waiting call => .woken call
  | status => status

section Model

variable {T : Type*} [DecidableEq T]

def State.notify (s : State T) (b : Bool) : State T :=
  match s.queue b with
  | [] => s
  | u :: rest =>
    { s with
      queue := update s.queue b rest
      status := update s.status u (s.status u).wake }

def State.park (s : State T) (t : T) (b : Bool) : Call → State T
  | .returned _ _ _ => { s with status := update s.status t .finished }
  | call =>
    { s with
      status := update s.status t (.waiting call)
      queue := update s.queue b (s.queue b ++ [t]) }

def State.leave (s : State T) (t : T) (b : Bool) (r : Ring × Call × Bool) : State T :=
  let s := { s with rb := r.1 }
  (if r.2.2 then s.notify !b else s).park t b r.2.1

def work (rb : Ring) : Status → Option (Bool × (Ring × Call × Bool))
  | .entering job => (enter 1 rb job.request).map fun call =>
    (side call, settle (settle (rb, call, false)))
  | .woken call => (wake 1 rb false noHangup call).map fun r => (side call, settle r)
  | _ => none

def next (s : State T) : Event T → Option (State T)
  | .start t job =>
    if s.status t = .finished then
      some { s with status := update s.status t (.entering job) }
    else none
  | .run t => (work s.rb (s.status t)).map fun w => s.leave t w.1 w.2

def Status.WokenOn (b : Bool) : Status → Prop
  | .woken call => side call = b
  | _ => False

instance (b : Bool) (status : Status) : Decidable (status.WokenOn b) := by
  cases status <;> simp only [Status.WokenOn] <;> infer_instance

/-- A thread that was notified takes all there is, or no other one of its side waits, or another one
was notified too. -/
def Sparing (s : State T) : Event T → Prop
  | .run t =>
    match s.status t with
    | .woken call => avail s.rb (side call) ≤ demand call ∨ s.queue (side call) = [] ∨
        ∃ u, u ≠ t ∧ (s.status u).WokenOn (side call)
    | _ => True
  | .start _ _ => True

instance [Fintype T] (s : State T) (e : Event T) : Decidable (Sparing s e) :=
  match e with
  | .run t =>
    match h : s.status t with
    | .woken _ => decidable_of_iff' _ (by simp only [Sparing, h]; rfl)
    | .finished | .entering _ | .waiting _ => .isTrue (by simp [Sparing, h])
  | .start _ _ => .isTrue trivial

def Stranded (s : State T) : Prop :=
  (∀ t, s.status t = .finished ∨ ∃ call, s.status t = .waiting call) ∧
    ∃ b, s.queue b ≠ [] ∧ 1 ≤ avail s.rb b

end Model

def Bounded (rb : Ring) : Prop :=
  rb.availRead.toNat ≤ rb.bufferSize.toNat ∧ rb.isEof = false

structure Section (rb : Ring) (b : Bool) (d : ℕ) (r : Ring × Call × Bool) : Prop where
  bounded : Bounded r.1
  size : r.1.bufferSize = rb.bufferSize
  ends : (∃ ret stored dst, r.2.1 = .returned ret stored dst) ∨
    Waits r.2.1 ∧ side r.2.1 = b ∧ avail r.1 b = 0
  quiet : r.2.2 = false → r.1 = rb
  less : avail r.1 b ≤ avail rb b
  all : avail rb b ≤ d → avail r.1 b = 0

section Sections

variable {rb : Ring} {buf : List UInt8} {buflen bytesWritten nbytes : ℕ}

theorem bounded_put (h : Bounded rb) {n : ℕ} (hn : n ≤ rb.availWrite.toNat) (buf : List UInt8) :
    Bounded (rb.put buf n) ∧ avail (rb.put buf n) false = avail rb false - n := by
  have hread : (rb.put buf n).availRead.toNat = rb.availRead.toNat + n := availRead_put_toNat h.1 hn
  have hbd : (rb.put buf n).availRead.toNat ≤ (rb.put buf n).bufferSize.toNat := by
    rw [availWrite_toNat h.1] at hn
    have hle := h.1
    change _ ≤ rb.bufferSize.toNat
    omega
  refine ⟨⟨hbd, h.2⟩, ?_⟩
  change (rb.put buf n).availWrite.toNat = rb.availWrite.toNat - n
  rw [availWrite_toNat hbd, availWrite_toNat h.1, hread]
  change rb.bufferSize.toNat - _ = _
  omega

theorem settle_waiting {b : Bool} : settle (rb, .writeWaiting buf buflen bytesWritten, b) =
      (rb, .writeWaiting buf buflen bytesWritten, b) := rfl

theorem settle_full (hbf : buf ≠ []) (hfl : rb.availWrite.toNat < 1) :
    settle (rb, writeTop buf buflen bytesWritten, true) =
      (rb, .writeWaiting buf buflen bytesWritten, true) := by
  have hsp : step 1 rb noHangup (.writing buf buflen bytesWritten) =
      some (rb, .writeWaiting buf buflen bytesWritten, false) := congrArg some (if_pos hfl)
  rw [writeTop, if_neg hbf, settle, hsp]
  rfl

theorem section_write (h : Bounded rb) :
    Section rb false buf.length (settle (writeTest 1 rb buf buflen bytesWritten)) := by
  by_cases hrm : rb.availWrite.toNat < 1
  · have hem : avail rb false = 0 := Nat.lt_one_iff.mp hrm
    rw [writeTest, if_pos hrm, settle_waiting]
    exact ⟨h, rfl, .inr ⟨trivial, rfl, hem⟩, fun _ => rfl, le_rfl, fun _ => hem⟩
  · have hpt : writeTest 1 rb buf buflen bytesWritten =
        (rb.put buf (min buf.length rb.availWrite.toNat), writeTop (buf.drop (min buf.length
          rb.availWrite.toNat)) buflen (bytesWritten + min buf.length rb.availWrite.toNat), true) :=
          if_neg hrm
    obtain ⟨hbd, hlf⟩ := bounded_put h (Nat.min_le_right buf.length rb.availWrite.toNat) buf
    rw [hpt]
    have hal : avail rb false ≤ buf.length →
        avail (rb.put buf (min buf.length rb.availWrite.toNat)) false = 0 := by
      intro hle
      rw [hlf]
      change rb.availWrite.toNat ≤ _ at hle
      change rb.availWrite.toNat - _ = 0
      omega
    by_cases hrs : buf.drop (min buf.length rb.availWrite.toNat) = []
    · rw [writeTop, if_pos hrs]
      exact ⟨hbd, rfl, .inl ⟨_, _, _, rfl⟩,
        fun hqt => absurd hqt.symm Bool.false_ne_true, hlf.trans_le (Nat.sub_le _ _), hal⟩
    · have hfl := hal (by
        rw [List.drop_eq_nil_iff] at hrs
        change rb.availWrite.toNat ≤ _
        omega)
      rw [settle_full hrs (Nat.lt_one_iff.mpr hfl)]
      exact ⟨hbd, rfl, .inr ⟨trivial, rfl, hfl⟩,
        fun hqt => absurd hqt.symm Bool.false_ne_true, hlf.trans_le (Nat.sub_le _ _), hal⟩

theorem section_read (h : Bounded rb) : Section rb true nbytes (settle (readTest 1 rb nbytes true)) := by
  by_cases hdt : rb.availRead.toNat < 1
  · have hem : avail rb true = 0 := Nat.lt_one_iff.mp hdt
    rw [readTest, if_pos ⟨hdt, by simp [h.2]⟩]
    exact ⟨h, rfl, .inr ⟨trivial, rfl, hem⟩, fun _ => rfl, le_rfl, fun _ => hem⟩
  · have hn := Nat.min_le_right nbytes rb.availRead.toNat
    have hlf := availRead_get_toNat hn
    have hbd : (rb.get (min nbytes rb.availRead.toNat)).2.availRead.toNat ≤ rb.bufferSize.toNat := by
      have hle := h.1
      omega
    rw [readTest, if_neg (by simp [hdt]), readEnd, if_neg (by simp [h.2])]
    refine ⟨⟨hbd, h.2⟩, rfl, .inl ⟨_, _, _, rfl⟩,
      fun hqt => absurd hqt.symm Bool.false_ne_true, ?_, fun hle => ?_⟩
    · change (rb.get _).2.availRead.toNat ≤ rb.availRead.toNat
      omega
    · change rb.availRead.toNat ≤ nbytes at hle
      change (rb.get _).2.availRead.toNat = 0
      omega

theorem settle_writing (hbf : buf ≠ []) :
    settle (rb, writeTop buf buflen bytesWritten, false) = writeTest 1 rb buf buflen bytesWritten := by
  rw [writeTop, if_neg hbf]
  rfl

theorem settle_reading (hsz : 1 < rb.bufferSize.toNat) :
    settle (rb, .reading nbytes true, false) = readTest 1 rb nbytes true := by
  have hsp : step 1 rb noHangup (.reading nbytes true) = some (readTest 1 rb nbytes true) :=
    if_pos hsz
  rw [settle, hsp]
  simp

theorem section_work {status : Status} {b : Bool} {r : Ring × Call × Bool} (h : Bounded rb)
    (hsz : 1 < rb.bufferSize.toNat) (hw : work rb status = some (b, r)) :
    ∃ d, Section rb b d r ∧ ∀ call, status = .woken call → b = side call ∧ d = demand call := by
  cases status with
  | finished => cases hw
  | waiting call => cases hw
  | entering job =>
    obtain ⟨call, hcl, hw⟩ := map_eq_some_iff.mp hw
    obtain ⟨rfl, rfl⟩ := Prod.mk.inj hw
    cases job with
    | write buf =>
      have hcl : writeTop buf buf.length 0 = call := by
        rw [Job.request, enter] at hcl
        split_ifs at hcl
        · exact some.inj hcl
        · contradiction
      subst hcl
      by_cases hbf : buf = []
      · subst hbf
        refine ⟨0, ⟨h, rfl, .inl ⟨_, _, _, rfl⟩, fun _ => rfl, le_rfl, Nat.le_zero.mp⟩,
          fun _ hwk => by cases hwk⟩
      · refine ⟨buf.length, ?_, fun _ hwk => by cases hwk⟩
        rw [settle_writing hbf, writeTop, if_neg hbf]
        exact section_write h
    | read nbytes =>
      obtain rfl := some.inj hcl
      refine ⟨nbytes, ?_, fun _ hwk => by cases hwk⟩
      rw [settle_reading hsz]
      exact section_read h
  | woken call =>
    obtain ⟨r', hr', hw⟩ := map_eq_some_iff.mp hw
    obtain ⟨rfl, rfl⟩ := Prod.mk.inj hw
    refine ⟨demand call, ?_, fun call' hcl' => by cases hcl'; exact ⟨rfl, rfl⟩⟩
    cases call with
    | writeWaiting buf buflen bytesWritten =>
      obtain rfl := some.inj hr'
      exact section_write h
    | readWaiting nbytes =>
      have hread : r' = readTest 1 rb nbytes true := by
        rw [wake, if_neg (by decide), if_neg (by simp [h.2]), if_neg (by decide)] at hr'
        exact (some.inj hr').symm
      subst hread
      exact section_read h
    | _ => cases hr'

end Sections

section Threads

variable {T : Type*} [DecidableEq T] {s s' : State T} {t : T} {b : Bool}

structure Queued (s : State T) : Prop where
  waiting : ∀ b, ∀ t ∈ s.queue b, ∃ call, s.status t = .waiting call ∧ side call = b
  nodup : ∀ b, (s.queue b).Nodup

def Coming (s : State T) (b : Bool) : Prop := ∃ t call, s.status t = .woken call ∧ side call = b

structure Invariant (s : State T) : Prop where
  bounded : Bounded s.rb
  size : 1 < s.rb.bufferSize.toNat
  queued : Queued s
  coming : ∀ b, s.queue b ≠ [] → 1 ≤ avail s.rb b → Coming s b

structure Told (s s' : State T) (b : Bool) (notified : Bool) : Prop where
  queued : Queued s'
  rb : s'.rb = s.rb
  queue : s'.queue (!b) = s.queue (!b)
  empty : s.queue b = [] → s'.queue b = []
  status : ∀ t, (∀ call, s.status t ≠ .waiting call) → s'.status t = s.status t
  coming : notified → s.queue b ≠ [] → Coming s' b

theorem told_notify (h : Queued s) (b : Bool) : Told s (s.notify b) b true := by
  cases hq : s.queue b with
  | nil =>
    have hsm : s.notify b = s := by rw [State.notify, hq]
    rw [hsm]
    exact ⟨h, rfl, rfl, id, fun _ _ => rfl, fun _ hne => absurd hq hne⟩
  | cons u rest =>
    have hnt : s.notify b = { s with
        queue := update s.queue b rest
        status := update s.status u (s.status u).wake } := by rw [State.notify, hq]
    obtain ⟨call, hu, hsd⟩ := h.waiting b u (by simp [hq])
    have hnd := h.nodup b
    rw [hq, List.nodup_cons] at hnd
    -- the notified thread is in no queue any more
    have hgn : ∀ b', ∀ t ∈ update s.queue b rest b', t ∈ s.queue b' ∧ t ≠ u := by
      intro b' t ht
      by_cases hb : b' = b
      · subst hb
        rw [update_self] at ht
        refine ⟨by simp [hq, ht], ?_⟩
        rintro rfl
        exact hnd.1 ht
      · rw [update_of_ne hb] at ht
        refine ⟨ht, ?_⟩
        rintro rfl
        obtain ⟨call', hu', hsd'⟩ := h.waiting b' t ht
        rw [hu] at hu'
        cases hu'
        exact hb (hsd'.symm.trans hsd)
    rw [hnt]
    refine ⟨⟨fun b' t ht => ?_, fun b' => ?_⟩, rfl, update_of_ne (by simp) _ _,
      fun hem => absurd (hq.symm.trans hem) (by simp), fun t ht => ?_,
      fun _ _ => ⟨u, call, ?_, hsd⟩⟩
    · obtain ⟨hme, hne⟩ := hgn b' t ht
      dsimp only
      rw [update_of_ne hne]
      exact h.waiting b' t hme
    · by_cases hb : b' = b
      · subst hb
        dsimp only
        rw [update_self]
        exact hnd.2
      · dsimp only
        rw [update_of_ne hb]
        exact h.nodup b'
    · refine update_of_ne ?_ _ _
      rintro rfl
      exact ht call hu
    · dsimp only
      rw [update_self, hu]
      rfl

theorem told (h : Queued s) (b notified : Bool) :
    Told s (if notified then s.notify b else s) b notified := by
  cases notified with
  | true => exact told_notify h b
  | false => exact ⟨h, rfl, rfl, id, fun _ _ => rfl, nofun⟩

theorem queued_park {call : Call} (h : Queued s) (ht : ∀ call, s.status t ≠ .waiting call)
    (hen : (∃ ret stored dst, call = .returned ret stored dst) ∨ Waits call ∧ side call = b) :
    Queued (s.park t b call) := by
  have hne : ∀ b', ∀ u ∈ s.queue b', u ≠ t := by
    rintro b' u hu rfl
    obtain ⟨call', hcl', -⟩ := h.waiting b' u hu
    exact ht call' hcl'
  obtain ⟨ret, stored, dst, rfl⟩ | ⟨hwt, hsd⟩ := hen
  · refine ⟨fun b' u hu => ?_, h.nodup⟩
    dsimp only [State.park]
    rw [update_of_ne (hne b' u hu)]
    exact h.waiting b' u hu
  · have hpr : s.park t b call = { s with
        status := update s.status t (.waiting call)
        queue := update s.queue b (s.queue b ++ [t]) } := by
      cases call <;> first | rfl | exact hwt.elim
    rw [hpr]
    refine ⟨fun b' u hu => ?_, fun b' => ?_⟩
    · dsimp only at hu ⊢
      by_cases hut : u = t
      · subst hut
        rw [update_self]
        refine ⟨call, rfl, ?_⟩
        by_contra hb
        rw [update_of_ne (fun h => hb (hsd.trans h.symm))] at hu
        exact hne b' u hu rfl
      · rw [update_of_ne hut]
        apply h.waiting b'
        by_cases hb : b' = b
        · subst hb
          rw [update_self, List.mem_append, List.mem_singleton] at hu
          exact hu.resolve_right hut
        · rwa [update_of_ne hb] at hu
    · dsimp only
      by_cases hb : b' = b
      · subst hb
        rw [update_self]
        refine List.nodup_append.mpr ⟨h.nodup b', by simp, fun u hu v hv => ?_⟩
        rw [List.mem_singleton.mp hv]
        exact hne b' u hu
      · rw [update_of_ne hb]
        exact h.nodup b'

theorem park_frame (s : State T) (t : T) (b : Bool) (call : Call) :
    (s.park t b call).rb = s.rb ∧ (∀ u, u ≠ t → (s.park t b call).status u = s.status u) ∧
      (s.park t b call).queue (!b) = s.queue (!b) ∧
      ((∃ ret stored dst, call = .returned ret stored dst) → (s.park t b call).queue = s.queue) := by
  cases call with
  | returned ret stored dst =>
    exact ⟨rfl, fun u hu => update_of_ne hu _ _, rfl, fun _ => rfl⟩
  | _ =>
    refine ⟨rfl, fun u hu => update_of_ne hu _ _, update_of_ne (by simp) _ _, ?_⟩
    rintro ⟨ret, stored, dst, h⟩
    cases h

theorem Invariant.leave {r : Ring × Call × Bool} {d : ℕ} (h : Invariant s)
    (ht : ∀ call, s.status t ≠ .waiting call) (hr : Section s.rb b d r)
    (hsd : ∀ call, s.status t = .woken call → side call = b)
    (hot : avail s.rb b ≤ d ∨ s.queue b = [] ∨ (∀ call, s.status t ≠ .woken call) ∨
      ∃ u call, u ≠ t ∧ s.status u = .woken call ∧ side call = b) : Invariant (s.leave t b r) := by
  have hq : Queued { s with rb := r.1 } := ⟨h.queued.waiting, h.queued.nodup⟩
  have htl := told hq (!b) r.2.2
  obtain ⟨hrb, hst, hfr, hnr⟩ := park_frame
    (if r.2.2 then { s with rb := r.1 }.notify !b else { s with rb := r.1 }) t b r.2.1
  have hrn : (s.leave t b r).rb = r.1 := hrb.trans htl.rb
  have hkp : ∀ u call, u ≠ t → s.status u = .woken call → (s.leave t b r).status u = .woken call := by
    intro u call hut hu
    refine (hst u hut).trans ((htl.status u fun call' => ?_).trans hu)
    rw [hu]
    nofun
  refine ⟨hrn ▸ hr.bounded, ?_, ?_, fun b' hne hav => ?_⟩
  · rw [hrn, hr.size]
    exact h.size
  · apply queued_park htl.queued
    · intro call
      rw [htl.status t ht]
      exact ht call
    · exact hr.ends.imp_right fun hw => ⟨hw.1, hw.2.1⟩
  · rw [hrn] at hav
    by_cases hb : b' = b
    · subst hb
      have hrt := hr.ends.resolve_right fun hw => by omega
      have hqu : (s.leave t b' r).queue b' = s.queue b' := by
        refine (congrFun (hnr hrt) b').trans ?_
        simpa using htl.queue
      rw [hqu] at hne
      obtain ⟨u, call, hu, hcl⟩ := h.coming b' hne (hav.trans hr.less)
      by_cases hut : u = t
      · subst hut
        obtain hal | hem | hno | ⟨v, call', hvt, hv, hcl'⟩ := hot
        · have := hr.all hal
          omega
        · exact absurd hem hne
        · exact absurd hu (hno call)
        · exact ⟨v, call', hkp v call' hvt hv, hcl'⟩
      · exact ⟨u, call, hkp u call hut hu, hcl⟩
    · obtain rfl : b' = !b := Bool.eq_not_of_ne hb
      rw [show (s.leave t b r).queue (!b) = _ from hfr] at hne
      have hne' : s.queue (!b) ≠ [] := fun hem => hne (htl.empty hem)
      have hft : ∀ call, s.status t = .woken call → side call ≠ !b := by
        intro call hcl
        rw [hsd call hcl]
        simp
      cases hfg : r.2.2 with
      | true =>
        obtain ⟨u, call, hu, hcl⟩ := htl.coming hfg hne'
        by_cases hut : u = t
        · subst hut
          exact absurd hcl (hft call ((htl.status u ht).symm.trans hu))
        · exact ⟨u, call, (hst u hut).trans hu, hcl⟩
      | false =>
        rw [hr.quiet hfg] at hav
        obtain ⟨u, call, hu, hcl⟩ := h.coming (!b) hne' hav
        by_cases hut : u = t
        · subst hut
          exact absurd hcl (hft call hu)
        · exact ⟨u, call, hkp u call hut hu, hcl⟩

theorem Invariant.next {e : Event T} (h : Invariant s) (hok : Sparing s e)
    (hn : next s e = some s') : Invariant s' := by
  cases e with
  | start t job =>
    rw [RingBufferWaiters.next] at hn
    split_ifs at hn with hfs
    cases hn
    have hkp : ∀ u, s.status u ≠ .finished →
        update s.status t (.entering job) u = s.status u := by
      intro u hu
      refine update_of_ne ?_ _ _
      rintro rfl
      exact hu hfs
    refine ⟨h.bounded, h.size, ⟨fun b u hu => ?_, h.queued.nodup⟩, fun b hne hav => ?_⟩
    · obtain ⟨call, hcl, hb⟩ := h.queued.waiting b u hu
      exact ⟨call, (hkp u (by rw [hcl]; nofun)).trans hcl, hb⟩
    · obtain ⟨u, call, hcl, hb⟩ := h.coming b hne hav
      exact ⟨u, call, (hkp u (by rw [hcl]; nofun)).trans hcl, hb⟩
  | run t =>
    obtain ⟨⟨b, r⟩, hw, rfl⟩ := map_eq_some_iff.mp hn
    obtain ⟨d, hr, hwk⟩ := section_work h.bounded h.size hw
    have ht : ∀ call, s.status t ≠ .waiting call := by
      intro call hcl
      rw [hcl] at hw
      cases hw
    refine h.leave ht hr (fun call hcl => (hwk call hcl).1.symm) ?_
    by_cases hst : ∃ call, s.status t = .woken call
    · obtain ⟨call, hcl⟩ := hst
      obtain ⟨rfl, rfl⟩ := hwk call hcl
      rw [Sparing, hcl] at hok
      obtain hal | hem | ⟨u, hut, hu⟩ := hok
      · exact .inl hal
      · exact .inr (.inl hem)
      · cases hst : s.status u with
        | woken call' => exact .inr (.inr (.inr ⟨u, call', hut, hst, by rwa [hst] at hu⟩))
        | _ => exact absurd hu (by simp [hst, Status.WokenOn])
    · exact .inr (.inr (.inl fun call hcl => hst ⟨call, hcl⟩))

/-- Where every thread that was notified is sparing, nobody is stranded. -/
theorem not_stranded (rb : Ring) (hbound : rb.availRead.toNat ≤ rb.bufferSize.toNat)
    (hsize : 1 < rb.bufferSize.toNat) (heof : rb.isEof = false) {s : State T}
    (h : Runs.Reaches next Sparing ⟨rb, fun _ => .finished, fun _ => []⟩ s) : ¬ Stranded s := by
  have hiv : Invariant s := by
    refine h.invariant Invariant ?_ fun s e s' hs hok hn => hs.next hok hn
    exact ⟨⟨hbound, heof⟩, hsize, ⟨fun b t ht => absurd ht List.not_mem_nil, fun _ => List.nodup_nil⟩,
      fun b hne => absurd rfl hne⟩
  rintro ⟨hqt, b, hne, hav⟩
  obtain ⟨t, call, hcl, -⟩ := hiv.coming b hne hav
  obtain hfs | ⟨call', hwn⟩ := hqt t
  · rw [hfs] at hcl
    cases hcl
  · rw [hwn] at hcl
    cases hcl

end Threads

def idleState (n : ℕ) : State (Fin n) := ⟨sampleRing, fun _ => .finished, fun _ => []⟩

theorem greedy_reader_not_stranded : ∃ s, Runs.Reaches next Sparing (idleState 2) s ∧
    s.status 0 = .finished ∧ s.rb.availRead = 0 ∧ ¬ Stranded s := by
  have hru : (Runs.run next Sparing (idleState 2) [.start 0 (.read 2), .run 0,
      .start 1 (.write [7, 8]), .run 1, .run 0]).map (fun s => (s.status 0, s.rb.availRead)) =
        some (.finished, 0) := by decide +kernel
  obtain ⟨s, hs, hfn⟩ := map_eq_some_iff.mp hru
  obtain ⟨hst, hav⟩ := Prod.mk.inj hfn
  have hrc := Runs.run_reaches hs
  exact ⟨s, hrc, hst, hav, not_stranded sampleRing (by decide) (by decide) rfl hrc⟩

/-- A writer wakes one of two readers, which leaves a byte for the other one. -/
theorem reader_stranded : ∃ s, Runs.Reaches next (fun _ _ => True) (idleState 3) s ∧ Stranded s := by
  have hru : (Runs.run next (fun _ _ => True) (idleState 3) [.start 0 (.read 1), .run 0,
      .start 1 (.read 1), .run 1, .start 2 (.write [7, 8]), .run 2, .run 0]).map
      (fun s => ((s.status 0, s.status 1, s.status 2), s.queue true, s.rb.availRead)) =
        some ((.finished, .waiting (.readWaiting 1), .finished), [1], 1) := by decide +kernel
  obtain ⟨s, hs, hfn⟩ := map_eq_some_iff.mp hru
  simp only [Prod.mk.injEq] at hfn
  obtain ⟨⟨h₀, h₁, h₂⟩, hqu, hav⟩ := hfn
  refine ⟨s, Runs.run_reaches hs, fun t => ?_, true, by simp [hqu], ?_⟩
  · match t with
    | 0 => exact .inl h₀
    | 1 => exact .inr ⟨_, h₁⟩
    | 2 => exact .inl h₂
  · change 1 ≤ s.rb.availRead.toNat
    rw [hav]
    decide

end RingBufferWaiters
