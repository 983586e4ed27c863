import SalernosKernel.Runs
import Mathlib.Data.Fintype.BigOperators

/-! # TLB shootdown

Processors that run threads of one process call `arch_mmu_invalidate` on its page table. A call
takes the shootdown lock of every other such processor, and only that processor's interrupt handler
gives the lock back. A step is a run of instructions with one access to shared memory; spinning is
no step. -/
namespace TlbShootdown

open Function
open Finset

structure Request where
  virt : ℕ
  pages : ℕ
  deriving DecidableEq

inductive Pc (n : ℕ) where
  | idle
  | loop (i : ℕ)
  | rqAcquire (t : Fin n)
  | rqRelease (t : Fin n)
  | rqExit (t : Fin n)
  | sdEnter (t : Fin n)
  | sdAcquire (t : Fin n)
  | sdPost (t : Fin n)
  | sdExit (t : Fin n)
  | wait
  deriving DecidableEq

inductive Isr where
  | invalidate
  | count
  | release
  | exit
  deriving DecidableEq

variable {n : ℕ}

def Pc.interruptible : Pc n → Bool
  | .idle | .loop _ | .sdEnter _ | .wait => true
  | _ => false

/-- `pending` is the IPI, `owner` the processor whose stack `mmu_shootdown_counter` points into.
`targeted` and `ran` only record, for the call in progress, where it has sent an IPI and where
the invalidation for it has been run. -/
structure State (n : ℕ) where
  pc : Fin n → Pc n
  isr : Fin n → Option Isr
  pending : Fin n → Bool
  runqueueLock : Fin n → Bool
  shootdownLock : Fin n → Bool
  owner : Fin n → Fin n
  args : Fin n → Request
  counter : Fin n → ℕ
  numOtherCpus : Fin n → ℕ
  request : Fin n → Request
  left : Fin n → List Request
  targeted : Fin n → Finset (Fin n)
  ran : Fin n → Finset (Fin n)

def kernelspaceStart : ℕ := 0xffff800000000000

/-- `virt` and `pages` of a call are 64-bit words, and so is the end of the range. -/
def Request.isUser (r : Request) : Bool :=
  decide (0 < r.virt) && decide ((r.virt + r.pages * 4096) % 2 ^ 64 < kernelspaceStart)

structure Setup (n : ℕ) where
  runs : Fin n → Bool
  calls : Fin n → List Request
  calls_runs : ∀ c, calls c ≠ [] → runs c

def Setup.numRunningThreads (S : Setup n) : ℕ := (univ.filter fun c => S.runs c).card

def Setup.doShootdown (S : Setup n) (r : Request) : Bool :=
  decide (kernelspaceStart ≤ r.virt) ||
    ((decide (r.virt = 0) || r.isUser) && decide (1 < S.numRunningThreads))

def initial (S : Setup n) : State n where
  pc _ := .idle
  isr _ := none
  pending _ := false
  runqueueLock _ := false
  shootdownLock _ := false
  owner c := c
  args _ := ⟨0, 0⟩
  counter _ := 0
  numOtherCpus _ := 0
  request _ := ⟨0, 0⟩
  left := S.calls
  targeted _ := ∅
  ran _ := ∅

inductive Event (n : ℕ) where
  | call (c : Fin n)
  | skip (c : Fin n)
  | rqEnter (c t : Fin n)
  | rqTake (c t : Fin n)
  | rqDrop (c t : Fin n)
  | rqLeave (c t : Fin n)
  | sdEnter (c t : Fin n)
  | sdTake (c t : Fin n)
  | sdPost (c t : Fin n)
  | sdLeave (c t : Fin n)
  | finish (c : Fin n) (i : ℕ)
  | ret (c : Fin n)
  | irq (c : Fin n)
  | isrInvalidate (c : Fin n)
  | isrCount (c : Fin n)
  | isrRelease (c : Fin n)
  | isrExit (c : Fin n)
  deriving DecidableEq

def At (s : State n) (c : Fin n) (p : Pc n) : Prop := s.isr c = none ∧ s.pc c = p

def Enabled (S : Setup n) (s : State n) : Event n → Prop
  | .call c => At s c .idle ∧ s.left c ≠ []
  | .skip c => At s c (.loop c) ∧ S.doShootdown (s.request c)
  | .rqEnter c t => At s c (.loop t) ∧ S.doShootdown (s.request c) ∧ t ≠ c
  | .rqTake c t => At s c (.rqAcquire t) ∧ s.runqueueLock t = false
  | .rqDrop c t => At s c (.rqRelease t)
  | .rqLeave c t => At s c (.rqExit t)
  | .sdEnter c t => At s c (.sdEnter t)
  | .sdTake c t => At s c (.sdAcquire t) ∧ s.shootdownLock t = false
  | .sdPost c t => At s c (.sdPost t)
  | .sdLeave c t => At s c (.sdExit t)
  | .finish c i => At s c (.loop i) ∧ ¬ (S.doShootdown (s.request c) ∧ i < n)
  | .ret c => At s c .wait ∧ (S.doShootdown (s.request c) → s.counter c = s.numOtherCpus c)
  | .irq c => s.pending c ∧ s.isr c = none ∧ (s.pc c).interruptible
  | .isrInvalidate c => s.isr c = some .invalidate
  | .isrCount c => s.isr c = some .count
  | .isrRelease c => s.isr c = some .release
  | .isrExit c => s.isr c = some .exit

instance (S : Setup n) (s : State n) (e : Event n) : Decidable (Enabled S s e) := by
  cases e <;> simp only [Enabled, At] <;> infer_instance

def State.goto (s : State n) (c : Fin n) (p : Pc n) : State n :=
  { s with pc := update s.pc c p }

def State.enterIsr (s : State n) (c : Fin n) (i : Option Isr) : State n :=
  { s with isr := update s.isr c i }

def next (S : Setup n) (s : State n) : Event n → State n
  | .call c =>
    { s.goto c (.loop 0) with
      request := update s.request c ((s.left c).headD ⟨0, 0⟩)
      left := update s.left c (s.left c).tail
      counter := update s.counter c 0
      numOtherCpus := update s.numOtherCpus c 0
      targeted := update s.targeted c ∅
      ran := update s.ran c ∅ }
  | .skip c => s.goto c (.loop (c + 1))
  | .rqEnter c t => s.goto c (.rqAcquire t)
  | .rqTake c t =>
    { s.goto c (.rqRelease t) with runqueueLock := update s.runqueueLock t true }
  | .rqDrop c t =>
    { s.goto c (.rqExit t) with runqueueLock := update s.runqueueLock t false }
  | .rqLeave c t => s.goto c (if S.runs t then .sdEnter t else .loop (t + 1))
  | .sdEnter c t => s.goto c (.sdAcquire t)
  | .sdTake c t =>
    { s.goto c (.sdPost t) with shootdownLock := update s.shootdownLock t true }
  | .sdPost c t =>
    { s.goto c (.sdExit t) with
      owner := update s.owner t c
      args := update s.args t (s.request c)
      numOtherCpus := update s.numOtherCpus c (s.numOtherCpus c + 1)
      pending := update s.pending t true
      targeted := update s.targeted c (insert t (s.targeted c)) }
  | .sdLeave c t => s.goto c (.loop (t + 1))
  -- The processor's own invalidation.
  | .finish c _ => s.goto c .wait
  | .ret c => s.goto c .idle
  | .irq c => { s.enterIsr c (some .invalidate) with pending := update s.pending c false }
  | .isrInvalidate c =>
    { s.enterIsr c (some .count) with
      ran := update s.ran (s.owner c) (if s.args c = s.request (s.owner c) then
        insert c (s.ran (s.owner c)) else s.ran (s.owner c)) }
  | .isrCount c =>
    { s.enterIsr c (some .release) with
      counter := update s.counter (s.owner c) (s.counter (s.owner c) + 1) }
  | .isrRelease c =>
    { s.enterIsr c (some .exit) with
      shootdownLock := update s.shootdownLock c false }
  | .isrExit c => s.enterIsr c none

def Reached (S : Setup n) : State n → Prop :=
  Runs.Reaches (fun s e => some (next S s e)) (Enabled S) (initial S)

def Deadlocked (S : Setup n) (s : State n) : Prop :=
  (∃ c, s.pc c ≠ .idle) ∧ ∀ e, ¬ Enabled S s e

variable {S : Setup n} {s s' : State n} {e : Event n} {c t : Fin n} {p q : Pc n}

structure Moves (s s' : State n) (c : Fin n) (p q : Pc n) : Prop where
  src : At s c p
  pc : s'.pc = update s.pc c q
  isr : s'.isr = s.isr
  pending : s'.pending = s.pending
  owner : s'.owner = s.owner
  args : s'.args = s.args
  counter : s'.counter = s.counter
  numOtherCpus : s'.numOtherCpus = s.numOtherCpus
  request : s'.request = s.request
  left : s'.left = s.left
  targeted : s'.targeted = s.targeted
  ran : s'.ran = s.ran

theorem moves_goto (h : At s c p) (q : Pc n) : Moves s (s.goto c q) c p q :=
  ⟨h, rfl, rfl, rfl, rfl, rfl, rfl, rfl, rfl, rfl, rfl, rfl⟩

def Pc.index : Pc n → ℕ
  | .idle => 0
  | .loop i => i
  | .rqAcquire t | .rqRelease t | .rqExit t | .sdEnter t | .sdAcquire t | .sdPost t => t
  | .sdExit t => t + 1
  | .wait => n

def Placed (S : Setup n) (r : Request) (c : Fin n) : Pc n → Prop
  | .idle | .wait => True
  | .loop i => i ≤ n
  | .rqAcquire t | .rqRelease t | .rqExit t => t ≠ c ∧ S.doShootdown r
  | .sdEnter t | .sdAcquire t | .sdPost t | .sdExit t => t ≠ c ∧ S.doShootdown r ∧ S.runs t

structure Edge (S : Setup n) (r : Request) (c : Fin n) (p q : Pc n) : Prop where
  busy : p ≠ .idle
  busy' : q ≠ .idle
  placed : Placed S r c p → Placed S r c q
  index : Placed S r c p → p.index ≤ q.index
  passes : S.doShootdown r → ∀ t, S.runs t → t ≠ c → (t.val < q.index ↔ t.val < p.index)

def IsMove : Event n → Bool
  | .skip _ | .rqEnter .. | .rqTake .. | .rqDrop .. | .rqLeave .. | .sdEnter .. | .sdTake ..
  | .sdLeave .. | .finish .. => true
  | _ => false

theorem exists_move (he : Enabled S s e) (hm : IsMove e) :
    ∃ c p q, Moves s (next S s e) c p q ∧ Edge S (s.request c) c p q := by
  cases e with
  | skip c =>
    refine ⟨c, _, _, moves_goto he.1 _, by simp, by simp, ?_, ?_, ?_⟩
    · intro _
      exact c.isLt
    · intro _
      exact Nat.le_succ _
    · intro _ t _ hne
      simp only [Pc.index]
      omega
  | rqEnter c t =>
    exact ⟨c, _, _, moves_goto he.1 _, by simp, by simp, fun _ => ⟨he.2.2, he.2.1⟩, fun _ => le_rfl,
      fun _ _ _ _ => Iff.rfl⟩
  | rqTake c t =>
    refine ⟨c, _, .rqRelease t, ⟨he.1, rfl, rfl, rfl, rfl, rfl, rfl, rfl, rfl, rfl, rfl, rfl⟩, ?_⟩
    exact ⟨by simp, by simp, id, fun _ => le_rfl, fun _ _ _ _ => Iff.rfl⟩
  | rqDrop c t =>
    refine ⟨c, _, .rqExit t, ⟨he, rfl, rfl, rfl, rfl, rfl, rfl, rfl, rfl, rfl, rfl, rfl⟩, ?_⟩
    exact ⟨by simp, by simp, id, fun _ => le_rfl, fun _ _ _ _ => Iff.rfl⟩
  | rqLeave c t =>
    refine ⟨c, _, _, moves_goto he _, ?_⟩
    cases hr : S.runs t with
    | true => exact ⟨by simp, by simp, fun h => ⟨h.1, h.2, hr⟩, fun _ => le_rfl,
        fun _ _ _ _ => Iff.rfl⟩
    | false =>
      refine ⟨by simp, by simp, fun _ => t.isLt, fun _ => Nat.le_succ _, ?_⟩
      intro _ t' hr' _
      have : t'.val ≠ t.val := by
        intro heq
        rw [Fin.ext heq, hr] at hr'
        simp at hr'
      simp only [Bool.false_eq_true, if_false, Pc.index]
      omega
  | sdEnter c t =>
    exact ⟨c, _, _, moves_goto he _, by simp, by simp, id, fun _ => le_rfl, fun _ _ _ _ => Iff.rfl⟩
  | sdTake c t =>
    refine ⟨c, _, .sdPost t, ⟨he.1, rfl, rfl, rfl, rfl, rfl, rfl, rfl, rfl, rfl, rfl, rfl⟩, ?_⟩
    exact ⟨by simp, by simp, id, fun _ => le_rfl, fun _ _ _ _ => Iff.rfl⟩
  | sdLeave c t =>
    exact ⟨c, _, _, moves_goto he _, by simp, by simp, fun _ => t.isLt, fun _ => le_rfl,
      fun _ _ _ _ => Iff.rfl⟩
  | finish c i =>
    refine ⟨c, _, _, moves_goto he.1 _, by simp, by simp, fun _ => trivial, id, ?_⟩
    intro hs t _ _
    have hi : ¬ i < n := fun hi => he.2 ⟨hs, hi⟩
    simp only [Pc.index]
    omega
  | call | sdPost | ret | irq | isrInvalidate | isrCount | isrRelease | isrExit =>
    simp [IsMove] at hm

structure LocalInvariant (S : Setup n) (s : State n) : Prop where
  placed : ∀ c, Placed S (s.request c) c (s.pc c)
  isr : ∀ c, s.isr c ≠ none → (s.pc c).interruptible
  request : ∀ c, s.pc c ≠ .idle → s.request c ∈ S.calls c
  left : ∀ c, s.left c ⊆ S.calls c

theorem LocalInvariant.initial (S : Setup n) : LocalInvariant S (initial S) := by
  constructor
  · intro c
    trivial
  · intro c hc
    exact absurd rfl hc
  · intro c hc
    exact absurd rfl hc
  · intro c r hr
    exact hr

theorem LocalInvariant.own (h : LocalInvariant S s) (hsr : At s c p)
    (hpc : s'.pc = update s.pc c q) (his : s'.isr = s.isr)
    (hrs : ∀ x, x ≠ c → s'.request x = s.request x ∧ s'.left x = s.left x)
    (hq : Placed S (s'.request c) c q) (hre : q ≠ .idle → s'.request c ∈ S.calls c)
    (hlf : s'.left c ⊆ s.left c) : LocalInvariant S s' := by
  constructor
  · intro x
    rw [hpc, update_apply]
    split
    · rename_i hx
      rw [hx]
      exact hq
    · rename_i hx
      rw [(hrs x hx).1]
      exact h.placed x
  · intro x hx
    rw [his] at hx
    rw [hpc, update_of_ne]
    · exact h.isr x hx
    · rintro rfl
      exact hx hsr.1
  · intro x hx
    rw [hpc, update_apply] at hx
    split at hx
    · rename_i hxc
      rw [hxc]
      exact hre hx
    · rename_i hxc
      rw [(hrs x hxc).1]
      exact h.request x hx
  · intro x
    by_cases hxc : x = c
    · rw [hxc]
      exact List.Subset.trans hlf (h.left c)
    · rw [(hrs x hxc).2]
      exact h.left x

theorem LocalInvariant.handler (h : LocalInvariant S s) {i : Option Isr}
    (hst : i ≠ none → (s.pc c).interruptible) (hpc : s'.pc = s.pc) (hlf : s'.left = s.left)
    (hre : s'.request = s.request) (his : s'.isr = update s.isr c i) :
    LocalInvariant S s' := by
  constructor
  · rw [hpc, hre]
    exact h.placed
  · intro x hx
    rw [his, update_apply] at hx
    rw [hpc]
    split at hx
    · rename_i hxc
      rw [hxc]
      exact hst hx
    · exact h.isr x hx
  · rw [hpc, hre]
    exact h.request
  · rw [hlf]
    exact h.left

theorem LocalInvariant.next (h : LocalInvariant S s) (he : Enabled S s e) :
    LocalInvariant S (next S s e) := by
  by_cases hmv : IsMove e
  · obtain ⟨c, p, q, hm, hed⟩ := exists_move he hmv
    refine h.own hm.src hm.pc hm.isr (fun x _ => ?_) ?_ (fun _ => ?_) ?_
    · exact ⟨congrFun hm.request x, congrFun hm.left x⟩
    · rw [hm.request]
      exact hed.placed (hm.src.2 ▸ h.placed c)
    · rw [hm.request]
      exact h.request c (hm.src.2 ▸ hed.busy)
    · rw [hm.left]
      exact List.Subset.refl _
  cases e with
  | call c =>
    have hh : (s.left c).headD ⟨0, 0⟩ ∈ s.left c := by
      cases hlf : s.left c with
      | nil => exact absurd hlf he.2
      | cons r rs => exact List.mem_cons_self
    refine h.own (q := .loop 0) he.1 rfl rfl (fun x hx => ?_) (Nat.zero_le n) (fun _ => ?_) ?_
    · simp [next, State.goto, hx]
    · simp only [next, update_self]
      exact h.left c hh
    · simp only [next, update_self]
      exact List.tail_subset _
  | sdPost c t =>
    have hpl := h.placed c
    rw [he.2] at hpl
    exact h.own he rfl rfl (fun _ _ => ⟨rfl, rfl⟩) hpl
      (fun _ => h.request c (by simp [he.2])) (List.Subset.refl _)
  | ret c =>
    exact h.own he.1 rfl rfl (fun _ _ => ⟨rfl, rfl⟩) trivial (fun hq => absurd rfl hq)
      (List.Subset.refl _)
  | irq c => exact h.handler (fun _ => he.2.2) rfl rfl rfl rfl
  | isrInvalidate c | isrCount c | isrRelease c =>
    have hc := h.isr c (he ▸ Option.some_ne_none _)
    exact h.handler (fun _ => hc) rfl rfl rfl rfl
  | isrExit c => exact h.handler (fun hi => absurd rfl hi) rfl rfl rfl rfl
  | skip | rqEnter | rqTake | rqDrop | rqLeave | sdEnter | sdTake | sdLeave | finish =>
    simp [IsMove] at hmv

def atCount (s : State n) (p : Pc n) : ℕ := (univ.filter fun c => s.pc c = p).card

theorem sum_change {f g : Fin n → ℕ} (c : Fin n) (h : ∀ x, x ≠ c → f x = g x) :
    ∑ x, f x + g c = ∑ x, g x + f c := by
  have hrs : ∑ x ∈ univ.erase c, f x = ∑ x ∈ univ.erase c, g x :=
    sum_congr rfl fun x hx => h x (ne_of_mem_erase hx)
  rw [← add_sum_erase _ f (mem_univ c), ← add_sum_erase _ g (mem_univ c), hrs]
  omega

theorem atCount_update (hpc : s'.pc = update s.pc c q) (hsr : s.pc c = p) (r : Pc n) :
    atCount s' r + (if p = r then 1 else 0) = atCount s r + if q = r then 1 else 0 := by
  have hrs : ∀ x, x ≠ c → (if s'.pc x = r then 1 else 0) = if s.pc x = r then 1 else 0 := by
    intro x hx
    rw [hpc, update_of_ne hx]
  have hsm := sum_change c hrs
  rw [hpc, update_self, hsr, ← hpc] at hsm
  rwa [atCount, atCount, card_filter, card_filter]

theorem atCount_pos (h : s.pc c = p) : 0 < atCount s p :=
  card_pos.mpr ⟨c, mem_filter.mpr ⟨mem_univ c, h⟩⟩

theorem exists_of_atCount_pos (h : 0 < atCount s p) : ∃ c, s.pc c = p := by
  obtain ⟨c, hc⟩ := card_pos.mp h
  exact ⟨c, (mem_filter.mp hc).2⟩

def Isr.busy : Option Isr → Bool
  | some .invalidate | some .count | some .release => true
  | _ => false

structure LockInvariant (s : State n) : Prop where
  runqueue : ∀ t, atCount s (.rqRelease t) = (s.runqueueLock t).toNat
  shootdown : ∀ t, atCount s (.sdPost t) + (s.pending t).toNat + (Isr.busy (s.isr t)).toNat =
    (s.shootdownLock t).toNat

theorem LockInvariant.initial (S : Setup n) : LockInvariant (initial S) := by
  constructor
  · intro t
    simp [atCount, TlbShootdown.initial]
  · intro t
    simp [atCount, TlbShootdown.initial, Isr.busy]

section

variable (h : LockInvariant s)

include h

theorem LockInvariant.own (hsr : At s c p)
    (hpc : s'.pc = update s.pc c q) (his : s'.isr = s.isr)
    (hrq : ∀ t, (s'.runqueueLock t).toNat + (if p = .rqRelease t then 1 else 0) =
      (s.runqueueLock t).toNat + if q = .rqRelease t then 1 else 0)
    (hsd : ∀ t, (s'.shootdownLock t).toNat + (s.pending t).toNat +
        (if p = .sdPost t then 1 else 0) =
      (s.shootdownLock t).toNat + (s'.pending t).toNat + if q = .sdPost t then 1 else 0) :
    LockInvariant s' := by
  constructor
  · intro t
    have := atCount_update hpc hsr.2 (.rqRelease t)
    have := h.runqueue t
    have := hrq t
    omega
  · intro t
    have := atCount_update hpc hsr.2 (.sdPost t)
    have := h.shootdown t
    have := hsd t
    rw [his]
    omega

theorem LockInvariant.handler {i : Option Isr} (hpc : s'.pc = s.pc)
    (hrq : s'.runqueueLock = s.runqueueLock) (his : s'.isr = update s.isr c i)
    (hrs : ∀ t, t ≠ c → s'.pending t = s.pending t ∧ s'.shootdownLock t = s.shootdownLock t)
    (hc : (s'.pending c).toNat + (Isr.busy i).toNat + (s.shootdownLock c).toNat =
      (s.pending c).toNat + (Isr.busy (s.isr c)).toNat + (s'.shootdownLock c).toNat) :
    LockInvariant s' := by
  have hct : ∀ r, atCount s' r = atCount s r := fun r => by rw [atCount, atCount, hpc]
  constructor
  · intro t
    rw [hct, hrq]
    exact h.runqueue t
  · intro t
    have hsd := h.shootdown t
    rw [hct, his, update_apply]
    split
    · rename_i htc
      subst htc
      omega
    · rename_i htc
      rw [(hrs t htc).1, (hrs t htc).2]
      exact hsd

theorem LockInvariant.quiet (hsr : At s c p)
    (hpc : s'.pc = update s.pc c q) (his : s'.isr = s.isr)
    (hrq : s'.runqueueLock = s.runqueueLock) (hsd : s'.shootdownLock = s.shootdownLock)
    (hpn : s'.pending = s.pending) (hp : ∀ t, p ≠ .rqRelease t ∧ p ≠ .sdPost t)
    (hq : ∀ t, q ≠ .rqRelease t ∧ q ≠ .sdPost t) : LockInvariant s' := by
  apply h.own hsr hpc his
  · intro t
    rw [hrq, if_neg (hp t).1, if_neg (hq t).1]
  · intro t
    rw [hsd, hpn, if_neg (hp t).2, if_neg (hq t).2]

theorem LockInvariant.next (he : Enabled S s e) :
    LockInvariant (next S s e) := by
  cases e with
  | call c | skip c | rqEnter c t | finish c i | ret c =>
      exact h.quiet he.1 rfl rfl rfl rfl rfl (by simp) (by simp)
  | rqTake c t =>
    refine h.own he.1 (q := .rqRelease t) rfl rfl (fun x => ?_) fun x => by simp; rfl
    by_cases hx : x = t
    · subst hx
      simp [next, he.2]
    · simp [next, hx, Ne.symm hx]
  | rqDrop c t =>
    have hhd : 0 < atCount s (.rqRelease t) := atCount_pos he.2
    rw [h.runqueue t] at hhd
    refine h.own he (q := .rqExit t) rfl rfl (fun x => ?_) fun x => by simp; rfl
    by_cases hx : x = t
    · subst hx
      have hlc : s.runqueueLock x = true := by
        cases hfr : s.runqueueLock x with
        | true => rfl
        | false =>
          rw [hfr] at hhd
          exact absurd hhd (by decide)
      simp [next, hlc]
    · simp [next, hx, Ne.symm hx]
  | rqLeave c t =>
    refine h.quiet he rfl rfl rfl rfl rfl (by simp) fun x => ?_
    split <;> simp
  | sdEnter c t | sdLeave c t => exact h.quiet he rfl rfl rfl rfl rfl (by simp) (by simp)
  | sdTake c t =>
    refine h.own he.1 (q := .sdPost t) rfl rfl (fun x => by simp; rfl) fun x => ?_
    by_cases hx : x = t
    · subst hx
      simp only [next, State.goto, update_self, he.2, Bool.toNat_true,
        Bool.toNat_false, if_true, reduceCtorEq, if_false]
      omega
    · simp [next, State.goto, hx, Ne.symm hx]
  | sdPost c t =>
    have hhd : 0 < atCount s (.sdPost t) := atCount_pos he.2
    have hlc := h.shootdown t
    have hle : (s.shootdownLock t).toNat ≤ 1 := Bool.toNat_le _
    have hpn : s.pending t = false := by
      cases hpt : s.pending t with
      | false => rfl
      | true =>
        rw [hpt, Bool.toNat_true] at hlc
        omega
    refine h.own he (q := .sdExit t) rfl rfl (fun x => by simp; rfl) fun x => ?_
    by_cases hx : x = t
    · subst hx
      simp [next, State.goto, hpn]
    · simp [next, State.goto, hx, Ne.symm hx]
  | irq c =>
    refine h.handler (i := some .invalidate) rfl rfl rfl (fun t ht => ?_) ?_
    · simp [next, State.enterIsr, ht]
    · simp [next, State.enterIsr, he.1, he.2.1, Isr.busy]
  | isrInvalidate c | isrCount c | isrExit c =>
    refine h.handler (c := c) rfl rfl rfl (fun t ht => ⟨rfl, rfl⟩) ?_
    simp [next, State.enterIsr, show s.isr c = _ from he, Isr.busy]
  | isrRelease c =>
    have his : s.isr c = some .release := he
    have hlc := h.shootdown c
    have hle : (s.shootdownLock c).toNat ≤ 1 := Bool.toNat_le _
    have hbs : (Isr.busy (s.isr c)).toNat = 1 := by rw [his]; rfl
    refine h.handler (i := some .exit) rfl rfl rfl (fun t ht => ?_) ?_
    · simp [next, State.enterIsr, ht]
    · have het : (Isr.busy (some .exit)).toNat = 0 := rfl
      simp only [next, State.enterIsr, update_self, Bool.toNat_false]
      omega

theorem LockInvariant.not_pending (hb : Isr.busy (s.isr t)) :
    s.pending t = false := by
  have hlc := h.shootdown t
  have hle : (s.shootdownLock t).toNat ≤ 1 := Bool.toNat_le _
  rw [hb, Bool.toNat_true] at hlc
  exact Bool.toNat_eq_zero.mp (by omega)

end

end TlbShootdown
