import Mathlib.Data.Fintype.Basic
import SalernosKernel.Runs

/-! # The queue of an NVMe drive

`nvme_submit_page_command_sync` of `opt/nvme/nvme.c` with a device that completes commands in any
order. A party `t` is a call and its command. A step goes from one test of the loop to the next, and
any call that waits may be woken: by `nvme_isr` the first one, by a signal each. -/
namespace NvmeQueue

open Function
open List

structure Cursor where
  idx : ℕ
  phase : Bool
  deriving DecidableEq

def Cursor.advance (qe : ℕ) (c : Cursor) : Cursor :=
  if c.idx + 1 = qe then ⟨0, !c.phase⟩ else ⟨c.idx + 1, c.phase⟩

inductive Call where
  | idle
  | testing
  | waiting
  | returned
  deriving DecidableEq

structure State (T : Type*) where
  sq : ℕ → Option T
  sqIdx : ℕ
  cq : Cursor
  tag : ℕ → Bool
  device : Cursor
  sent : List T
  posted : List T
  consumers : List T
  call : T → Call
  /-- A submission has gone to the slot of a command that is not completed. -/
  overwritten : Bool

inductive Event (T : Type*) where
  | submit (t : T)
  | test (t : T)
  | wake (t : T)
  | complete (t : T)

section Code

variable {T : Type*} [DecidableEq T]

def nvmeSubmit (qe : ℕ) (s : State T) (t : T) : State T :=
  { s with
    sq := update s.sq s.sqIdx (some t)
    sqIdx := if s.sqIdx + 1 = qe then 0 else s.sqIdx + 1
    sent := s.sent ++ [t]
    overwritten := s.overwritten || (s.sq s.sqIdx).any fun u => u ∉ s.posted }

def nvmeQueueDone (s : State T) : Prop := s.tag s.cq.idx ≠ s.cq.phase
  deriving Decidable

def next (qe : ℕ) (s : State T) : Event T → Option (State T)
  | .submit t =>
    if s.call t = .idle then
      some { nvmeSubmit qe s t with call := update s.call t .testing }
    else none
  | .test t =>
    if s.call t ≠ .testing then none
    else if nvmeQueueDone s then
      some { s with
        cq := s.cq.advance qe, consumers := s.consumers ++ [t]
        call := update s.call t .returned }
    else some { s with call := update s.call t .waiting }
  | .wake t =>
    if s.call t = .waiting then some { s with call := update s.call t .testing } else none
  | .complete t =>
    -- an entry is posted to a place that the doorbell has released
    if t ∈ s.sent ∧ t ∉ s.posted ∧ s.posted.length < s.consumers.length + qe then
      some { s with
        tag := update s.tag s.device.idx (!s.device.phase)
        device := s.device.advance qe, posted := s.posted ++ [t] }
    else none

def start : State T :=
  ⟨fun _ => none, 0, ⟨0, false⟩, fun _ => false, ⟨0, false⟩, [], [], [], fun _ => .idle, false⟩

end Code

section Matching

variable {T : Type*} {qe : ℕ} {s s' : State T} {t u : T} {e : Event T}

def Outside (call : Call) : Prop := call = .idle ∨ call = .returned
  deriving Decidable

/-- A command is submitted only when no other call is under way. -/
def Alone (s : State T) : Event T → Prop
  | .submit _ => ∀ u, Outside (s.call u)
  | _ => True

instance [Fintype T] (s : State T) : DecidablePred (Alone s) := fun e =>
  match e with
  | .submit _ => inferInstanceAs (Decidable (∀ u, Outside (s.call u)))
  | .test _ | .wake _ | .complete _ => isTrue trivial

def Tagged (qe : ℕ) (tag : ℕ → Bool) (c : Cursor) : Prop :=
  c.idx < qe ∧ ∀ j < qe, tag j = if j < c.idx then !c.phase else c.phase

theorem Tagged.post {tag : ℕ → Bool} {c : Cursor} (h : Tagged qe tag c) :
    Tagged qe (update tag c.idx (!c.phase)) (c.advance qe) := by
  obtain ⟨hlt, htg⟩ := h
  have hnw : ∀ j < qe, update tag c.idx (!c.phase) j =
      if j < c.idx + 1 then !c.phase else c.phase := by
    intro j hj
    by_cases hc : j = c.idx
    · rw [hc, update_self, if_pos (by omega)]
    · rw [update_of_ne hc, htg j hj]
      by_cases hlt' : j < c.idx
      · rw [if_pos hlt', if_pos (by omega)]
      · rw [if_neg hlt', if_neg (by omega)]
  rw [Cursor.advance]
  split_ifs with hwr
  · refine ⟨by dsimp only; omega, fun j hj => ?_⟩
    rw [hnw j hj, if_pos (by omega), if_neg (by simp)]
  · exact ⟨by dsimp only; omega, hnw⟩

theorem Tagged.not_done (h : Tagged qe s.tag s.device) (hde : s.device = s.cq) :
    ¬ nvmeQueueDone s := by
  intro hdn
  apply hdn
  rw [← hde, h.2 _ h.1, if_neg (lt_irrefl _)]

structure Quiet (s : State T) : Prop where
  outside : ∀ u, Outside (s.call u)
  device : s.device = s.cq
  posted : s.posted = s.consumers
  sent : ∀ u ∈ s.sent, u ∈ s.posted

structure Busy (qe : ℕ) (s : State T) (t : T) : Prop where
  inside : ¬ Outside (s.call t)
  outside : ∀ u, u ≠ t → Outside (s.call u)
  ahead : s.device = s.cq ∧ s.posted = s.consumers ∨
    s.device = s.cq.advance qe ∧ s.posted = s.consumers ++ [t]
  sent : ∀ u ∈ s.sent, u ∈ s.consumers ∨ u = t

structure Invariant (qe : ℕ) (s : State T) : Prop where
  tagged : Tagged qe s.tag s.device
  slots : ∀ j u, s.sq j = some u → u ∈ s.sent
  kept : s.overwritten = false
  returned : ∀ u, s.call u = .returned → u ∈ s.consumers
  shape : Quiet s ∨ ∃ t, Busy qe s t

theorem Invariant.busy (h : Invariant qe s) (ht : ¬ Outside (s.call t)) : Busy qe s t := by
  rcases h.shape with hqt | ⟨u, hbs⟩
  · exact absurd (hqt.outside t) ht
  · by_cases hut : t = u
    · exact hut ▸ hbs
    · exact absurd (hbs.outside t hut) ht

theorem Invariant.complete (h : Invariant qe s) (hsn : t ∈ s.sent) (hps : t ∉ s.posted) :
    Invariant qe { s with
      tag := update s.tag s.device.idx (!s.device.phase)
      device := s.device.advance qe, posted := s.posted ++ [t] } := by
  rcases h.shape with hqt | ⟨u, hbs⟩
  · exact absurd (hqt.sent t hsn) hps
  · have hme := hbs.sent t hsn
    rcases hbs.ahead with ⟨hdv, hsm⟩ | ⟨-, hon⟩
    · obtain rfl : t = u := hme.resolve_left (hsm ▸ hps)
      refine ⟨h.tagged.post, h.slots, h.kept, h.returned, .inr ⟨t, hbs.inside, hbs.outside,
        .inr ⟨?_, ?_⟩, hbs.sent⟩⟩
      · exact congrArg (Cursor.advance qe) hdv
      · exact congrArg (· ++ [t]) hsm
    · rw [hon, mem_append, mem_singleton] at hps
      exact absurd hme hps

variable [DecidableEq T]

theorem Invariant.submit (h : Invariant qe s) (hok : ∀ u, Outside (s.call u)) :
    Invariant qe { nvmeSubmit qe s t with call := update s.call t .testing } := by
  have hqt : Quiet s := h.shape.resolve_right fun ⟨u, hbs⟩ => hbs.inside (hok u)
  refine ⟨h.tagged, fun j u hj => ?_, ?_, fun u hu => ?_, .inr ⟨t, ?_, fun u hu => ?_,
    .inl ⟨hqt.device, hqt.posted⟩, fun u hu => ?_⟩⟩
  · change update s.sq s.sqIdx (some t) j = some u at hj
    apply mem_append.mpr
    by_cases hsl : j = s.sqIdx
    · rw [hsl, update_self] at hj
      exact .inr (mem_singleton.mpr (Option.some.inj hj).symm)
    · rw [update_of_ne hsl] at hj
      exact .inl (h.slots j u hj)
  · change (s.overwritten || (s.sq s.sqIdx).any fun u => u ∉ s.posted) = false
    rw [h.kept, Bool.false_or]
    cases hsl : s.sq s.sqIdx with
    | none => rfl
    | some u => simpa using hqt.sent u (h.slots _ u hsl)
  · change update s.call t .testing u = .returned at hu
    by_cases hut : u = t
    · rw [hut, update_self] at hu
      cases hu
    · rw [update_of_ne hut] at hu
      exact h.returned u hu
  · dsimp only
    rw [update_self]
    decide
  · dsimp only
    rw [update_of_ne hu]
    exact hok u
  · rcases mem_append.mp hu with hu | hu
    · exact .inl (hqt.posted ▸ hqt.sent u hu)
    · exact .inr (mem_singleton.mp hu)

theorem Invariant.setCall (h : Invariant qe s) (ht : ¬ Outside (s.call t)) {call : Call}
    (hcl : ¬ Outside call) : Invariant qe { s with call := update s.call t call } := by
  have hbs := h.busy ht
  refine ⟨h.tagged, h.slots, h.kept, fun u hu => ?_, .inr ⟨t, ?_, fun u hu => ?_, hbs.ahead,
    hbs.sent⟩⟩
  · change update s.call t call u = .returned at hu
    by_cases hut : u = t
    · rw [hut, update_self] at hu
      exact absurd (.inr hu) hcl
    · rw [update_of_ne hut] at hu
      exact h.returned u hu
  · dsimp only
    rwa [update_self]
  · dsimp only
    rw [update_of_ne hu]
    exact hbs.outside u hu

theorem Invariant.consume (h : Invariant qe s) (ht : ¬ Outside (s.call t)) (hdn : nvmeQueueDone s) :
    Invariant qe { s with
      cq := s.cq.advance qe, consumers := s.consumers ++ [t]
      call := update s.call t .returned } := by
  have hbs := h.busy ht
  obtain ⟨hdv, hps⟩ := hbs.ahead.resolve_left fun hsm =>
    h.tagged.not_done hsm.1 hdn
  refine ⟨h.tagged, h.slots, h.kept, fun u hu => ?_, .inl ⟨fun u => ?_, hdv, hps, fun u hu => ?_⟩⟩
  · change update s.call t .returned u = .returned at hu
    apply mem_append.mpr
    by_cases hut : u = t
    · exact .inr (mem_singleton.mpr hut)
    · rw [update_of_ne hut] at hu
      exact .inl (h.returned u hu)
  · dsimp only
    by_cases hut : u = t
    · rw [hut, update_self]
      exact .inr rfl
    · rw [update_of_ne hut]
      exact hbs.outside u hut
  · rw [hps, mem_append, mem_singleton]
    exact hbs.sent u hu

theorem Invariant.next (h : Invariant qe s) (hok : Alone s e) (hn : next qe s e = some s') :
    Invariant qe s' := by
  cases e with
  | submit t =>
    rw [NvmeQueue.next] at hn
    split_ifs at hn
    cases hn
    exact h.submit hok
  | test t =>
    rw [NvmeQueue.next] at hn
    split_ifs at hn with hcl hdn
    · have ht : ¬ Outside (s.call t) := by
        rw [not_not.mp hcl]
        decide
      cases hn
      exact h.consume ht hdn
    · have ht : ¬ Outside (s.call t) := by
        rw [not_not.mp hcl]
        decide
      cases hn
      exact h.setCall ht (by decide)
  | wake t =>
    rw [NvmeQueue.next] at hn
    split_ifs at hn with hcl
    have ht : ¬ Outside (s.call t) := by
      rw [hcl]
      decide
    cases hn
    exact h.setCall ht (by decide)
  | complete t =>
    rw [NvmeQueue.next] at hn
    split_ifs at hn with hpt
    cases hn
    exact h.complete hpt.1 hpt.2.1

/-- The completion entries are consumed once each, in their order, by the calls whose commands they
complete, and no command is overwritten before. -/
theorem completions_matched {qe : ℕ} (hqe : 0 < qe) {s : State T}
    (h : Runs.Reaches (next qe) Alone start s) :
    (∀ t, s.call t = .returned → t ∈ s.posted) ∧ s.consumers <+: s.posted ∧
      ((∀ t, Outside (s.call t)) → s.consumers = s.posted) ∧ s.overwritten = false := by
  have hiv : Invariant qe s := by
    apply h.invariant (Invariant qe)
    · refine ⟨⟨hqe, fun j _ => ?_⟩, (fun _ _ hj => by cases hj), rfl, (fun _ hu => by cases hu),
        .inl ⟨fun _ => .inl rfl, rfl, rfl, fun _ hu => hu⟩⟩
      exact (if_neg (Nat.not_lt_zero j)).symm
    · intro s e s' hs hok hn
      exact hs.next hok hn
  have hpr : s.consumers <+: s.posted := by
    rcases hiv.shape with hqt | ⟨t, hbs⟩
    · exact hqt.posted ▸ prefix_rfl
    · rcases hbs.ahead with ⟨-, hsm⟩ | ⟨-, hon⟩
      · exact hsm ▸ prefix_rfl
      · rw [hon]
        exact prefix_append _ _
  refine ⟨fun t ht => hpr.subset (hiv.returned t ht), hpr, fun hot => ?_, hiv.kept⟩
  rcases hiv.shape with hqt | ⟨t, hbs⟩
  · exact hqt.posted.symm
  · exact absurd (hot t) hbs.inside

end Matching

/-- Two commands are submitted, the second one is completed first, and the first call returns. -/
theorem completions_not_matched : ∃ s : State (Fin 2),
    Runs.Reaches (next 64) (fun _ _ => True) start s ∧ s.call 0 = .returned ∧ 0 ∉ s.posted := by
  have hrn : (Runs.run (next 64) (fun _ _ => True) start
      [.submit (0 : Fin 2), .test 0, .submit 1, .test 1, .complete 1, .wake 0, .test 0]).map
        (fun s => (s.call 0, s.posted)) = some (.returned, [1]) := by decide +kernel
  obtain ⟨s, hs, hed⟩ := Option.map_eq_some_iff.mp hrn
  obtain ⟨hcl, hps⟩ := Prod.mk.inj hed
  exact ⟨s, Runs.run_reaches hs, hcl, by rw [hps]; decide⟩

theorem completions_matched_twice : ∃ s : State (Fin 2), s.call 1 = .returned ∧
    (∀ t, s.call t = .returned → t ∈ s.posted) ∧ s.consumers <+: s.posted ∧
      ((∀ t, Outside (s.call t)) → s.consumers = s.posted) ∧ s.overwritten = false := by
  have hrn : (Runs.run (next 64) Alone start [.submit (0 : Fin 2), .test 0, .complete 0, .wake 0,
      .test 0, .submit 1, .complete 1, .test 1]).map (fun s => s.call 1) = some .returned := by
    decide +kernel
  obtain ⟨s, hs, hcl⟩ := Option.map_eq_some_iff.mp hrn
  exact ⟨s, hcl, completions_matched (by decide) (Runs.run_reaches hs)⟩

end NvmeQueue
