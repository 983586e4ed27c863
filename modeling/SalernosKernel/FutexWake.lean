import SalernosKernel.Futex

/-! # Which threads a wake reaches

`FUTEX_WAKE` of `com/sys/syscall/futex.c` for all words. `FutexMap` compares whole addresses, and a
futex is made for one entry of it. -/
namespace FutexWake

open List

structure State (T : Type*) where
  futexMap : BitVec 64 → Option (List T)
  ready : List T

variable {T : Type*}

/-- The loop of `com_sys_sched_notify_n`: `local_queue`, and who is left. -/
def notifyN : ℕ → List T → List T → List T × List T
  | 0, localQueue, queue => (localQueue, queue)
  | _ + 1, localQueue, [] => (localQueue, [])
  | n + 1, localQueue, t :: queue => notifyN n (localQueue ++ [t]) queue

def wake (s : State T) (phys : BitVec 64) (value : BitVec 32) : ℕ × State T :=
  match s.futexMap phys with
  | none => (0, s)
  | some waiters =>
    let r := if Futex.INT_MAX ≤ value.toNat then (waiters, []) else notifyN value.toNat [] waiters
    (value.toNat, ⟨Function.update s.futexMap phys (some r.2), s.ready ++ r.1⟩)

/-- The threads that wait on the word at an address, the longest first. -/
def State.queue (s : State T) (phys : BitVec 64) : List T := (s.futexMap phys).getD []

/-- The first `n` threads are made ready, and nobody else is touched. -/
def Wakes (s s' : State T) (phys : BitVec 64) (n : ℕ) : Prop :=
  s'.ready = s.ready ++ (s.queue phys).take n ∧ s'.queue phys = (s.queue phys).drop n ∧
    ∀ phys', phys' ≠ phys → s'.queue phys' = s.queue phys'

theorem notifyN_eq (n : ℕ) (l q : List T) : notifyN n l q = (l ++ q.take n, q.drop n) := by
  induction n generalizing l q with
  | zero => simp [notifyN]
  | succ n ih =>
    cases q with
    | nil => simp [notifyN]
    | cons t q => simp [notifyN, ih]

variable {s s' : State T} {phys : BitVec 64} {n k : ℕ}

theorem wakes_update {waiters : List T} (h : s.futexMap phys = some waiters) :
    Wakes s ⟨Function.update s.futexMap phys (some (waiters.drop n)),
      s.ready ++ waiters.take n⟩ phys n := by
  have hqu : s.queue phys = waiters := by rw [State.queue, h, Option.getD_some]
  refine ⟨by rw [hqu], ?_, fun phys' hne => ?_⟩
  · simp [State.queue, h]
  · simp [State.queue, hne]

theorem Wakes.iff_min (h : Wakes s s' phys n) :
    Wakes s s' phys k ↔ min n (s.queue phys).length = min k (s.queue phys).length := by
  constructor
  · intro h'
    have := congrArg length (h.2.1.symm.trans h'.2.1)
    rw [length_drop, length_drop] at this
    omega
  · intro heq
    have htk : (s.queue phys).take n = (s.queue phys).take k := by
      rw [take_eq_take_min, heq, ← take_eq_take_min]
    have hdr : (s.queue phys).drop n = (s.queue phys).drop k := by
      have := (take_append_drop n (s.queue phys)).trans (take_append_drop k _).symm
      rw [htk] at this
      exact append_cancel_left this
    exact ⟨htk ▸ h.1, hdr ▸ h.2.1, h.2.2⟩

/-- A wake does what it says unless it says more than it did, or was asked for `INT_MAX` or more
threads and did more. -/
theorem futex_wake_iff (s : State T) (phys : BitVec 64) (value : BitVec 32) :
    (Wakes s (wake s phys value).2 phys (min value.toNat (s.queue phys).length) ∧
      (wake s phys value).1 = min value.toNat (s.queue phys).length) ↔
    s.futexMap phys = none ∨ value.toNat ≤ (s.queue phys).length ∧
      (value.toNat < Futex.INT_MAX ∨ (s.queue phys).length ≤ value.toNat) := by
  cases hgt : s.futexMap phys with
  | none =>
    have hqu : s.queue phys = [] := by rw [State.queue, hgt, Option.getD_none]
    refine iff_of_true ?_ (.inl rfl)
    rw [wake, hgt, hqu]
    exact ⟨⟨by simp [hqu], by simp [hqu], fun _ _ => rfl⟩, by simp⟩
  | some waiters =>
    have hqu : s.queue phys = waiters := by rw [State.queue, hgt, Option.getD_some]
    obtain ⟨k, hk, hwk⟩ : ∃ k,
        k = (if Futex.INT_MAX ≤ value.toNat then waiters.length else value.toNat) ∧
          Wakes s (wake s phys value).2 phys k := by
      refine ⟨_, rfl, ?_⟩
      rw [wake, hgt]
      dsimp only
      split_ifs
      · have hal := wakes_update (n := waiters.length) hgt
        rwa [take_length, drop_length] at hal
      · rw [notifyN_eq, nil_append]
        exact wakes_update hgt
    have hrt : (wake s phys value).1 = value.toNat := by rw [wake, hgt]
    rw [hwk.iff_min, hrt, hk, hqu]
    simp only [reduceCtorEq, false_or]
    split_ifs with hmx <;> omega

/-- Two are asked for, one is woken, and two is the answer. -/
theorem futex_wake_overstates :
    let r := wake ⟨fun phys => if phys = 0x1000 then some [7] else none, []⟩ 0x1000 2
    r.2.ready = [7] ∧ r.1 = 2 := by
  decide

end FutexWake
