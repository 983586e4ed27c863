import Mathlib.Data.Fintype.Basic
import SalernosKernel.CalloutQueue

/-! # Cancelling callouts while the queue runs

`com_sys_callout_cancel`, `com_sys_callout_set_and_enqueue` and `com_sys_callout_run` of
`com/sys/callout.c` as interleavings of their sections: of the queue's lock and of `entry_lock`. -/
namespace CalloutRemoval

open Function CalloutQueue
open Option

structure State (C T : Type*) extends Queue C where
  cpuCallout : C → Bool
  /-- Threads that have taken `cpu_callout` away and are to unlink the callout. -/
  cancelling : T → Option C
  handling : Option C
  /-- How often a callout was put on the queue, and how often `TAILQ_REMOVE` was applied to it. -/
  enqueues : C → ℕ
  removals : C → ℕ
  misplaced : Bool
  /-- A call of `com_sys_callout_cancel` has returned since the last insertion. -/
  cancelled : C → Bool
  late : Bool

inductive Event (C T : Type*) where
  | enqueue (c : C) (delay : ℕ)
  | tick
  | pop
  | handled
  | cancel (t : T) (c : C)
  | remove (t : T)
  deriving DecidableEq

section Model

variable {C T : Type*} [DecidableEq C] [DecidableEq T] (timerNs : ℕ)

def initial (ns : ℕ) : State C T :=
  ⟨emptyQueue ns, fun _ => false, fun _ => none, none, fun _ => 0, fun _ => 0, false,
    fun _ => false, false⟩

def next (s : State C T) : Event C T → Option (State C T)
  | .enqueue c delay =>
    if c ∈ s.queue then none
    else some { s with
      toQueue := s.comSysCalloutSetAndEnqueue c delay
      cpuCallout := update s.cpuCallout c true
      enqueues := update s.enqueues c (s.enqueues c + 1)
      cancelled := update s.cancelled c false }
  | .tick => some { s with ns := (s.ns + timerNs) % 2 ^ 64 }
  | .pop =>
    match s.queue, s.handling with
    | c :: rest, none =>
      if s.ns < s.time c then none
      else some { s with
        queue := rest
        cpuCallout := update s.cpuCallout c false
        handling := some c
        removals := update s.removals c (s.removals c + 1)
        late := s.late || s.cancelled c }
    | _, _ => none
  | .handled => if s.handling = none then none else some { s with handling := none }
  | .cancel t c =>
    if s.cancelling t ≠ none then none
    else if s.cpuCallout c then
      some { s with
        cpuCallout := update s.cpuCallout c false
        cancelling := update s.cancelling t (some c) }
    else some { s with cancelled := update s.cancelled c true }
  | .remove t =>
    match s.cancelling t with
    | some c =>
      some { s with
        queue := s.queue.erase c
        cancelling := update s.cancelling t none
        removals := update s.removals c (s.removals c + 1)
        misplaced := s.misplaced || c ∉ s.queue
        cancelled := update s.cancelled c true }
    | none => none

/-- Every insertion is undone once or still stands, nothing is removed that is not there, and no
handler runs after a cancellation. -/
structure Exact (s : State C T) : Prop where
  removals : ∀ c, s.enqueues c = s.removals c + if c ∈ s.queue then 1 else 0
  misplaced : s.misplaced = false
  late : s.late = false

/-- `com_sys_callout_run` takes no callout that a thread is about to unlink. -/
def Clear (s : State C T) (e : Event C T) : Prop :=
  e = .pop → ∀ c ∈ s.queue.head?, ∀ t, s.cancelling t ≠ some c

instance [Fintype T] (s : State C T) (e : Event C T) : Decidable (Clear s e) :=
  inferInstanceAs (Decidable (e = .pop → ∀ c ∈ s.queue.head?, ∀ t, s.cancelling t ≠ some c))

end Model

section Invariants

variable {C T : Type*} [DecidableEq C] {timerNs : ℕ}

structure Invariant (s : State C T) : Prop extends Exact s where
  ordered : Ordered s.toQueue
  pending : ∀ t c, s.cancelling t = some c → c ∈ s.queue ∧ s.cpuCallout c = false
  single : ∀ t u c, s.cancelling t = some c → s.cancelling u = some c → t = u
  linked : ∀ c ∈ s.queue, s.cpuCallout c = true ∨ ∃ t, s.cancelling t = some c
  registered : ∀ c, s.cpuCallout c = true → c ∈ s.queue ∧ s.cancelled c = false

variable {s s' : State C T} {c : C} {t : T}

theorem invariant_initial (ns : ℕ) : Invariant (initial ns : State C T) where
  removals := fun c => by simp [initial, emptyQueue]
  misplaced := rfl
  late := rfl
  ordered := ⟨List.Pairwise.nil, nofun⟩
  pending := nofun
  single := nofun
  linked := nofun
  registered := nofun

theorem Invariant.enqueue (h : Invariant s) {delay : ℕ} (hc : c ∉ s.queue) : Invariant { s with
      toQueue := s.comSysCalloutSetAndEnqueue c delay
      cpuCallout := update s.cpuCallout c true
      enqueues := update s.enqueues c (s.enqueues c + 1)
      cancelled := update s.cancelled c false } := by
  have hme : ∀ d, d ∈ (s.comSysCalloutSetAndEnqueue c delay).queue ↔ d = c ∨ d ∈ s.queue :=
    fun d => mem_insertOrdered
  refine ⟨⟨fun d => ?_, h.misplaced, h.late⟩, h.ordered.enqueue hc, fun u d hu => ?_, h.single,
    fun d hd => ?_, fun d hd => ?_⟩
  · simp only [hme]
    by_cases hdc : d = c
    · have hct := h.removals c
      rw [if_neg hc] at hct
      rw [hdc, update_self, if_pos (.inl rfl), hct]
    · simp only [update_of_ne hdc, hdc, false_or]
      exact h.removals d
  · obtain ⟨hd, hnl⟩ := h.pending u d hu
    have hne : d ≠ c := fun heq => hc (heq ▸ hd)
    dsimp only
    rw [update_of_ne hne]
    exact ⟨(hme d).mpr (.inr hd), hnl⟩
  · dsimp only
    by_cases hdc : d = c
    · rw [hdc, update_self]
      exact .inl rfl
    · rw [update_of_ne hdc]
      exact h.linked d (((hme d).mp hd).resolve_left hdc)
  · dsimp only at hd ⊢
    by_cases hdc : d = c
    · rw [hdc, update_self]
      exact ⟨(hme c).mpr (.inl rfl), rfl⟩
    · rw [update_of_ne hdc] at hd ⊢
      exact ⟨(hme d).mpr (.inr (h.registered d hd).1), (h.registered d hd).2⟩

theorem Invariant.pop (h : Invariant s) {rest : List C} (hq : s.queue = c :: rest)
    (hcl : ∀ t, s.cancelling t ≠ some c) : Invariant { s with
      queue := rest
      cpuCallout := update s.cpuCallout c false
      handling := some c
      removals := update s.removals c (s.removals c + 1)
      late := s.late || s.cancelled c } := by
  have hnd := h.ordered.nodup
  rw [hq, List.nodup_cons] at hnd
  have hme : ∀ d, d ≠ c → (d ∈ s.queue ↔ d ∈ rest) := fun d hd => by
    rw [hq, List.mem_cons, or_iff_right hd]
  have hrg : s.cpuCallout c = true :=
    (h.linked c (hq ▸ List.mem_cons_self)).resolve_right fun ⟨t, ht⟩ => hcl t ht
  refine ⟨⟨fun d => ?_, h.misplaced, ?_⟩, h.ordered.sublist (hq ▸ List.sublist_cons_self c rest),
    fun u d hu => ?_, h.single, fun d hd => ?_, fun d hd => ?_⟩
  · have hct := h.removals d
    dsimp only
    by_cases hdc : d = c
    · rw [hdc] at hct ⊢
      rw [if_pos (hq ▸ List.mem_cons_self)] at hct
      rw [update_self, if_neg hnd.1, hct]
    · simp only [update_of_ne hdc, ← hme d hdc]
      exact hct
  · rw [h.late, (h.registered c hrg).2]
    rfl
  · have hne : d ≠ c := fun heq => hcl u (heq ▸ hu)
    dsimp only
    rw [update_of_ne hne, ← hme d hne]
    exact h.pending u d hu
  · have hne : d ≠ c := fun heq => hnd.1 (heq ▸ hd)
    dsimp only
    rw [update_of_ne hne]
    exact h.linked d ((hme d hne).mpr hd)
  · dsimp only at hd ⊢
    by_cases hdc : d = c
    · rw [hdc, update_self] at hd
      exact nomatch hd
    · rw [update_of_ne hdc] at hd
      rw [← hme d hdc]
      exact h.registered d hd

theorem Invariant.cancel_null (h : Invariant s) (hc : s.cpuCallout c = false) :
    Invariant { s with cancelled := update s.cancelled c true } := by
  refine ⟨⟨h.removals, h.misplaced, h.late⟩, h.ordered, h.pending, h.single, h.linked,
    fun d hd => ?_⟩
  have hne : d ≠ c := fun heq => Bool.false_ne_true ((heq ▸ hc).symm.trans hd)
  dsimp only
  rw [update_of_ne hne]
  exact h.registered d hd

variable [DecidableEq T]

theorem Invariant.cancel (h : Invariant s) (hc : s.cpuCallout c = true)
    (ht : s.cancelling t = none) : Invariant { s with
      cpuCallout := update s.cpuCallout c false
      cancelling := update s.cancelling t (some c) } := by
  have hfr : ∀ u, s.cancelling u ≠ some c := fun u hu =>
    Bool.false_ne_true ((h.pending u c hu).2.symm.trans hc)
  have hcs : ∀ u d, update s.cancelling t (some c) u = some d →
      u = t ∧ d = c ∨ u ≠ t ∧ d ≠ c ∧ s.cancelling u = some d := by
    intro u d hu
    by_cases hut : u = t
    · rw [hut, update_self] at hu
      exact .inl ⟨hut, (some.inj hu).symm⟩
    · rw [update_of_ne hut] at hu
      exact .inr ⟨hut, fun heq => hfr u (heq ▸ hu), hu⟩
  refine ⟨⟨h.removals, h.misplaced, h.late⟩, h.ordered, fun u d hu => ?_, fun u v d hu hv => ?_,
    fun d hd => ?_, fun d hd => ?_⟩
  · dsimp only
    rcases hcs u d hu with ⟨-, rfl⟩ | ⟨-, hne, hu⟩
    · rw [update_self]
      exact ⟨(h.registered _ hc).1, rfl⟩
    · rw [update_of_ne hne]
      exact h.pending u d hu
  · rcases hcs u d hu with ⟨rfl, rfl⟩ | ⟨-, hne, hu⟩
    · rcases hcs v _ hv with ⟨rfl, -⟩ | ⟨-, hne, -⟩
      · rfl
      · exact absurd rfl hne
    · rcases hcs v d hv with ⟨-, hdc⟩ | ⟨-, -, hv⟩
      · exact absurd hdc hne
      · exact h.single u v d hu hv
  · dsimp only
    by_cases hdc : d = c
    · exact .inr ⟨t, by rw [hdc, update_self]⟩
    · rw [update_of_ne hdc]
      refine (h.linked d hd).imp_right fun ⟨u, hu⟩ => ⟨u, ?_⟩
      rw [update_of_ne fun hut => nomatch (hut ▸ hu).symm.trans ht]
      exact hu
  · dsimp only at hd ⊢
    by_cases hdc : d = c
    · rw [hdc, update_self] at hd
      exact nomatch hd
    · rw [update_of_ne hdc] at hd
      exact h.registered d hd

theorem Invariant.remove (h : Invariant s) (ht : s.cancelling t = some c) : Invariant { s with
    queue := s.queue.erase c
    cancelling := update s.cancelling t none
    removals := update s.removals c (s.removals c + 1)
    misplaced := s.misplaced || c ∉ s.queue
    cancelled := update s.cancelled c true } := by
  obtain ⟨hc, hnl⟩ := h.pending t c ht
  have hme : ∀ d, d ∈ s.queue.erase c ↔ d ≠ c ∧ d ∈ s.queue := fun d =>
    h.ordered.nodup.mem_erase_iff
  have hcs : ∀ u d, update s.cancelling t none u = some d →
      d ≠ c ∧ s.cancelling u = some d := by
    intro u d hu
    have hut : u ≠ t := fun heq => by
      rw [heq, update_self] at hu
      exact nomatch hu
    rw [update_of_ne hut] at hu
    exact ⟨fun heq => hut (h.single u t c (heq ▸ hu) ht), hu⟩
  refine ⟨⟨fun d => ?_, ?_, h.late⟩, h.ordered.sublist List.erase_sublist, fun u d hu => ?_, fun u v
    d hu hv => h.single u v d (hcs u d hu).2 (hcs v d hv).2, fun d hd => ?_, fun d hd => ?_⟩
  · have hct := h.removals d
    simp only [hme]
    by_cases hdc : d = c
    · rw [hdc] at hct ⊢
      rw [if_pos hc] at hct
      rw [update_self, if_neg fun han => han.1 rfl, hct]
    · simp only [update_of_ne hdc, ne_eq, hdc, not_false_iff, true_and]
      exact hct
  · rw [h.misplaced, decide_eq_false (not_not.mpr hc)]
    rfl
  · obtain ⟨hne, hu⟩ := hcs u d hu
    obtain ⟨hd, hnl'⟩ := h.pending u d hu
    exact ⟨(hme d).mpr ⟨hne, hd⟩, hnl'⟩
  · obtain ⟨hne, hd⟩ := (hme d).mp hd
    refine (h.linked d hd).imp_right fun ⟨u, hu⟩ => ⟨u, ?_⟩
    have hut : u ≠ t := fun heq => hne (some.inj ((heq ▸ hu).symm.trans ht))
    dsimp only
    rwa [update_of_ne hut]
  · have hne : d ≠ c := fun heq => Bool.false_ne_true (hnl.symm.trans (heq ▸ hd))
    dsimp only
    rw [update_of_ne hne]
    exact ⟨(hme d).mpr ⟨hne, (h.registered d hd).1⟩, (h.registered d hd).2⟩

theorem Invariant.next (h : Invariant s) {e : Event C T} (hok : Clear s e)
    (hn : next timerNs s e = some s') : Invariant s' := by
  cases e with
  | enqueue c delay =>
    obtain ⟨hc, hs'⟩ := ite_none_left_eq_some.mp hn
    cases hs'
    exact h.enqueue hc
  | tick =>
    cases hn
    exact ⟨⟨h.removals, h.misplaced, h.late⟩, ⟨h.ordered.order, h.ordered.stamps⟩, h.pending,
      h.single, h.linked, h.registered⟩
  | pop =>
    rw [CalloutRemoval.next] at hn
    split at hn
    · rename_i c rest hq _
      obtain ⟨-, hs'⟩ := ite_none_left_eq_some.mp hn
      cases hs'
      exact h.pop hq (hok rfl c (by rw [hq]; rfl))
    · exact nomatch hn
  | handled =>
    obtain ⟨-, hs'⟩ := ite_none_left_eq_some.mp hn
    cases hs'
    exact ⟨⟨h.removals, h.misplaced, h.late⟩, h.ordered, h.pending, h.single, h.linked,
      h.registered⟩
  | cancel t c =>
    obtain ⟨ht, hs'⟩ := ite_none_left_eq_some.mp hn
    split_ifs at hs' with hc
    · cases hs'
      exact h.cancel hc (not_not.mp ht)
    · cases hs'
      exact h.cancel_null (Bool.eq_false_of_not_eq_true hc)
  | remove t =>
    rw [CalloutRemoval.next] at hn
    split at hn
    · rename_i c ht
      cases hn
      exact h.remove ht
    · exact nomatch hn

end Invariants

/-- Removal is exact in every run in which the queue takes no callout between the two sections of a
cancellation. -/
theorem removal_exact {C T : Type*} [DecidableEq C] [DecidableEq T] (timerNs ns : ℕ) {s : State C T}
    (h : Runs.Reaches (next timerNs) Clear (initial ns) s) : Exact s :=
  (h.invariant Invariant (invariant_initial ns) fun _ _ _ hs hok hn => hs.next hok hn).toExact

theorem removal_exact_both : ∃ s : State ℕ (Fin 2), s.handling = some 7 ∧ s.queue = [] ∧
    s.removals 7 = 1 ∧ s.removals 5 = 1 ∧ Exact s := by
  have hrn : (Runs.run (next 10) Clear (initial 0 : State ℕ (Fin 2)) [.enqueue 7 5, .enqueue 5 5,
      .cancel 0 5, .cancel 1 5, .tick, .pop, .remove 0]).map
        (fun s => (s.handling, s.queue, s.removals 7, s.removals 5)) = some (some 7, [], 1, 1) := by
    decide +kernel
  obtain ⟨s, hs, hst⟩ := map_eq_some_iff.mp hrn
  obtain ⟨hhn, hst⟩ := Prod.mk.inj hst
  obtain ⟨hqu, hst⟩ := Prod.mk.inj hst
  obtain ⟨hsv, hfv⟩ := Prod.mk.inj hst
  exact ⟨s, hhn, hqu, hsv, hfv, removal_exact 10 0 (Runs.run_reaches hs)⟩

/-- The queue takes the callout after the first section of a cancellation. -/
theorem removal_not_exact : ∃ s : State ℕ (Fin 1),
    Runs.Reaches (next 10) (fun _ _ => True) (initial 0) s ∧ s.misplaced = true ∧
      s.enqueues 7 = 1 ∧ s.removals 7 = 2 ∧ ¬ Exact s := by
  have hrn : (Runs.run (next 10) (fun _ _ => True) (initial 0 : State ℕ (Fin 1)) [.enqueue 7 5,
      .cancel 0 7, .tick, .pop, .remove 0]).map
        (fun s => (s.misplaced, s.enqueues 7, s.removals 7)) = some (true, 1, 2) := by
    decide +kernel
  obtain ⟨s, hs, hst⟩ := map_eq_some_iff.mp hrn
  obtain ⟨hms, hst⟩ := Prod.mk.inj hst
  obtain ⟨hen, hrm⟩ := Prod.mk.inj hst
  exact ⟨s, Runs.run_reaches hs, hms, hen, hrm,
    fun h => Bool.false_ne_true (h.misplaced.symm.trans hms)⟩

end CalloutRemoval
