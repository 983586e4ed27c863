import Mathlib.Algebra.Order.Ring.Nat
import SalernosKernel.Runs

/-! # The callout queue

`com/sys/callout.c` on the queue that callouts are put on, with the calls one at a time. A callout
that `callout_add` allocates is any one that is not on the queue; in between calls `cpu_callout` is
set for those that are on it. -/
namespace CalloutQueue

open Option

structure Queue (C : Type*) where
  ns : ℕ
  queue : List C
  time : C → ℕ
  stamp : C → ℕ
  inserted : ℕ

inductive Action (C : Type*) where
  | cancel (c : C)
  | add (c : C) (delay : ℕ)
  deriving DecidableEq

inductive Event (C : Type*) where
  | add (c : C) (delay : ℕ)
  | addAt (c : C) (ns : ℕ)
  | setAndEnqueue (c : C) (delay : ℕ)
  | cancel (c : C)
  | run (handler : C → List (Action C))

section Model

variable {C : Type*} [DecidableEq C]

def insertOrdered (time : C → ℕ) (c : C) : List C → List C
  | [] => [c]
  | d :: ds => if time c < time d then c :: d :: ds else d :: insertOrdered time c ds

namespace Queue

variable (q : Queue C)

def enqueueCallout (c : C) (ns : ℕ) : Queue C :=
  { q with
    queue := insertOrdered (Function.update q.time c ns) c q.queue
    time := Function.update q.time c ns
    stamp := Function.update q.stamp c q.inserted
    inserted := q.inserted + 1 }

def calloutAddAt (c : C) (ns : ℕ) : Queue C := q.enqueueCallout c ns

def calloutAdd (c : C) (delay : ℕ) : Queue C := q.enqueueCallout c ((q.ns + delay) % 2 ^ 64)

def comSysCalloutSetAndEnqueue (c : C) (delay : ℕ) : Queue C :=
  q.enqueueCallout c ((q.ns + delay) % 2 ^ 64)

def comSysCalloutCancel (c : C) : Queue C :=
  if c ∈ q.queue then { q with queue := q.queue.erase c } else q

def act : Action C → Queue C
  | .cancel c => q.comSysCalloutCancel c
  | .add c delay =>
    if c ∉ q.queue ∧ 1 ≤ delay ∧ q.ns + delay < 2 ^ 64 then q.calloutAdd c delay else q

end Queue

def runLoop (handler : C → List (Action C)) : ℕ → Queue C → Option (Queue C × List C)
  | 0, _ => none
  | fuel + 1, q =>
    match q.queue with
    | [] => some (q, [])
    | c :: rest =>
      if q.ns < q.time c then some (q, [])
      else (runLoop handler fuel ((handler c).foldl Queue.act { q with queue := rest })).map
        fun r => (r.1, c :: r.2)

variable (timerNs : ℕ)

def comSysCalloutRun (q : Queue C) (handler : C → List (Action C)) : Option (Queue C × List C) :=
  runLoop handler (q.queue.length + 1) { q with ns := (q.ns + timerNs) % 2 ^ 64 }

def next (q : Queue C) : Event C → Option (Queue C)
  | .add c delay => some (q.calloutAdd c delay)
  | .addAt c ns => some (q.calloutAddAt c ns)
  | .setAndEnqueue c delay => some (q.comSysCalloutSetAndEnqueue c delay)
  | .cancel c => some (q.comSysCalloutCancel c)
  | .run handler => (comSysCalloutRun timerNs q handler).map Prod.fst

/-- No time is beyond 64 bits, and nothing is put on the queue twice. -/
def Allowed (q : Queue C) : Event C → Prop
  | .add c delay => c ∉ q.queue ∧ q.ns + delay < 2 ^ 64
  | .addAt c _ => c ∉ q.queue
  | .setAndEnqueue c delay => c ∉ q.queue ∧ q.ns + delay < 2 ^ 64
  | .cancel _ => True
  | .run _ => q.ns + timerNs < 2 ^ 64

instance (q : Queue C) (e : Event C) : Decidable (Allowed timerNs q e) := by
  cases e <;> simp only [Allowed] <;> infer_instance

def due (q : Queue C) (ns : ℕ) : List C := q.queue.filter fun c => q.time c ≤ ns

def cancels (handler : C → List (Action C)) (c : C) : List C :=
  (handler c).filterMap fun
    | .cancel d => some d
    | .add _ _ => none

def served (handler : C → List (Action C)) : List C → List C → List C
  | _, [] => []
  | gone, c :: cs =>
    if c ∈ gone then served handler gone cs
    else c :: served handler (gone ++ cancels handler c) cs

end Model

section Order

variable {C : Type*} [DecidableEq C]

def Queue.Before (q : Queue C) (c d : C) : Prop :=
  q.time c < q.time d ∨ q.time c = q.time d ∧ q.stamp c < q.stamp d

structure Ordered (q : Queue C) : Prop where
  order : q.queue.Pairwise q.Before
  stamps : ∀ c ∈ q.queue, q.stamp c < q.inserted

variable {q : Queue C} {c : C} {ns : ℕ}

theorem mem_insertOrdered {time : C → ℕ} {d : C} {l : List C} :
    d ∈ insertOrdered time c l ↔ d = c ∨ d ∈ l := by
  induction l with
  | nil => rw [insertOrdered, List.mem_singleton, or_iff_left List.not_mem_nil]
  | cons e l ih =>
    rw [insertOrdered]
    split_ifs
    · exact List.mem_cons
    · rw [List.mem_cons, ih, List.mem_cons]
      tauto

theorem pairwise_insertOrdered {time : C → ℕ} {r : C → C → Prop} {l : List C}
    (h : l.Pairwise r) (hlt : ∀ d ∈ l, time c < time d → r c d)
    (hle : ∀ d ∈ l, ¬ time c < time d → r d c) (htm : ∀ d e, r d e → time d ≤ time e) :
    (insertOrdered time c l).Pairwise r := by
  induction l with
  | nil => exact List.pairwise_singleton r c
  | cons d l ih =>
    rw [List.pairwise_cons] at h
    rw [insertOrdered]
    split_ifs with hd
    · refine List.pairwise_cons.mpr ⟨fun e he => hlt e he ?_, List.pairwise_cons.mpr h⟩
      rcases List.mem_cons.mp he with rfl | he
      · exact hd
      · exact lt_of_lt_of_le hd (htm d e (h.1 e he))
    · refine List.pairwise_cons.mpr ⟨fun e he => ?_, ih h.2 (fun e he => hlt e (List.mem_cons_of_mem
        d he)) (fun e he => hle e (List.mem_cons_of_mem d he))⟩
      rcases mem_insertOrdered.mp he with rfl | he
      · exact hle d List.mem_cons_self hd
      · exact h.1 e he

omit [DecidableEq C] in
theorem filter_insertOrdered {time : C → ℕ} {p : C → Bool} (hc : p c = false) (l : List C) :
    (insertOrdered time c l).filter p = l.filter p := by
  induction l with
  | nil => simp [insertOrdered, hc]
  | cons d l ih =>
    rw [insertOrdered]
    split_ifs
    · rw [List.filter_cons_of_neg (by simp [hc])]
    · rw [List.filter_cons, List.filter_cons, ih]

omit [DecidableEq C] in
theorem Ordered.nodup (h : Ordered q) : q.queue.Nodup :=
  h.order.imp fun {c d} hcd heq => by
    rw [heq] at hcd
    rcases hcd with hlt | ⟨-, hlt⟩ <;> exact lt_irrefl _ hlt

theorem Ordered.enqueue (h : Ordered q) (hc : c ∉ q.queue) : Ordered (q.enqueueCallout c ns) := by
  have hne : ∀ d ∈ q.queue, d ≠ c := fun d hd heq => hc (heq ▸ hd)
  have htm : ∀ d ∈ q.queue, (q.enqueueCallout c ns).time d = q.time d := fun d hd =>
    Function.update_of_ne (hne d hd) _ _
  have hst : ∀ d ∈ q.queue, (q.enqueueCallout c ns).stamp d = q.stamp d := fun d hd =>
    Function.update_of_ne (hne d hd) _ _
  have hsl : (q.enqueueCallout c ns).stamp c = q.inserted := Function.update_self ..
  refine ⟨pairwise_insertOrdered ?_ (fun d _ hlt => .inl hlt) (fun d hd hle => ?_) ?_, ?_⟩
  · refine h.order.imp_of_mem fun {d e} hd he hde => ?_
    rwa [Queue.Before, htm d hd, htm e he, hst d hd, hst e he]
  · -- A later insertion goes behind those at the same time.
    rcases Nat.lt_or_eq_of_le (Nat.not_lt.mp hle) with hlt | heq
    · exact .inl hlt
    · refine .inr ⟨heq, ?_⟩
      rw [hsl, hst d hd]
      exact h.stamps d hd
  · rintro d e (hlt | ⟨heq, -⟩)
    · exact hlt.le
    · exact heq.le
  · intro d hd
    rcases mem_insertOrdered.mp hd with rfl | hd
    · rw [hsl]
      exact Nat.lt_succ_self _
    · rw [hst d hd]
      exact Nat.lt_succ_of_lt (h.stamps d hd)

omit [DecidableEq C] in
theorem Ordered.sublist (h : Ordered q) {l : List C} (hl : l.Sublist q.queue) :
    Ordered { q with queue := l } :=
  ⟨h.order.sublist hl, fun d hd => h.stamps d (hl.subset hd)⟩

theorem cancel_eq (q : Queue C) (c : C) :
    q.comSysCalloutCancel c = { q with queue := q.queue.erase c } := by
  rw [Queue.comSysCalloutCancel]
  split_ifs with hc
  · rfl
  · rw [List.erase_of_not_mem hc]

end Order

section Run

variable {C : Type*} [DecidableEq C] {q : Queue C} {handler : C → List (Action C)} {c : C}

theorem due_enqueue {ns : ℕ} (hc : c ∉ q.queue) (hns : q.ns < ns) :
    due (q.enqueueCallout c ns) q.ns = due q q.ns := by
  refine (filter_insertOrdered ?_ q.queue).trans (List.filter_congr fun d hd => ?_)
  · simpa [Queue.enqueueCallout] using hns
  · have hne : d ≠ c := fun heq => hc (heq ▸ hd)
    simp [Queue.enqueueCallout, Function.update_of_ne hne]

theorem act_spec (h : Ordered q) (a : Action C) : Ordered (q.act a) ∧ (q.act a).ns = q.ns ∧
    due (q.act a) q.ns = (due q q.ns).filter fun d => .cancel d ≠ a := by
  cases a with
  | cancel c =>
    rw [Queue.act, cancel_eq]
    refine ⟨h.sublist List.erase_sublist, rfl, ?_⟩
    rw [due, due]
    rw [h.nodup.erase_eq_filter, List.filter_filter, List.filter_filter]
    refine List.filter_congr fun d _ => ?_
    rw [Bool.and_comm]
    simp [bne, beq_eq_decide]
  | add c delay =>
    have hkp : (due q q.ns).filter (fun d => .cancel d ≠ Action.add c delay) = due q q.ns :=
      List.filter_eq_self.mpr fun d _ => rfl
    rw [Queue.act, hkp]
    split_ifs with hal
    · obtain ⟨hc, hdl, hns⟩ := hal
      rw [Queue.calloutAdd, Nat.mod_eq_of_lt hns]
      exact ⟨h.enqueue hc, rfl, due_enqueue hc (Nat.lt_add_of_pos_right hdl)⟩
    · exact ⟨h, rfl, rfl⟩

theorem acts_spec (h : Ordered q) (as : List (Action C)) :
    Ordered (as.foldl Queue.act q) ∧ (as.foldl Queue.act q).ns = q.ns ∧
      due (as.foldl Queue.act q) q.ns = (due q q.ns).filter fun d => .cancel d ∉ as := by
  induction as generalizing q with
  | nil => exact ⟨h, rfl, (List.filter_eq_self.mpr fun d _ => by simp).symm⟩
  | cons a as ih =>
    obtain ⟨hat, hns, hdd⟩ := act_spec h a
    obtain ⟨hall, hns', hdd'⟩ := ih hat
    rw [hns] at hns' hdd'
    refine ⟨hall, hns', hdd'.trans ?_⟩
    rw [hdd, List.filter_filter]
    refine List.filter_congr fun d _ => ?_
    rw [Bool.and_comm]
    simp [not_or]

omit [DecidableEq C] in
theorem mem_cancels {d : C} : d ∈ cancels handler c ↔ .cancel d ∈ handler c := by
  rw [cancels, List.mem_filterMap]
  constructor
  · rintro ⟨a, ha, hd⟩
    cases a with
    | cancel e => exact some.inj hd ▸ ha
    | add e delay => exact nomatch hd
  · exact fun h => ⟨_, h, rfl⟩

theorem served_filter {gone gone' : List C} {p : C → Bool}
    (h : ∀ c, c ∈ gone' ↔ c ∈ gone ∨ p c = false) (l : List C) :
    served handler gone (l.filter p) = served handler gone' l := by
  induction l generalizing gone gone' with
  | nil => rfl
  | cons c l ih =>
    have hcn : ∀ d, d ∈ gone' ++ cancels handler c ↔ d ∈ gone ++ cancels handler c ∨ p d = false := by
      intro d
      rw [List.mem_append, List.mem_append, h d]
      tauto
    by_cases hp : p c = true
    · rw [List.filter_cons_of_pos hp, served, served, ih h, ih hcn]
      refine if_congr ?_ rfl rfl
      rw [h c, or_iff_left (by simp [hp])]
    · rw [List.filter_cons_of_neg hp, ih h, served, if_pos]
      exact (h c).mpr (.inr (by simpa using hp))

omit [DecidableEq C] in
theorem due_eq_nil (h : Ordered q) {rest : List C} (hq : q.queue = c :: rest)
    (hc : q.ns < q.time c) : due q q.ns = [] ∧ ∀ d ∈ q.queue, q.ns < q.time d := by
  have hall : ∀ d ∈ q.queue, q.ns < q.time d := by
    have hod := h.order
    rw [hq, List.pairwise_cons] at hod
    intro d hd
    rcases List.mem_cons.mp (hq ▸ hd) with rfl | hd
    · exact hc
    · rcases hod.1 d hd with hlt | ⟨heq, -⟩
      · exact hc.trans hlt
      · exact heq ▸ hc
  refine ⟨List.filter_eq_nil_iff.mpr fun d hd => ?_, hall⟩
  rw [decide_eq_true_iff, not_le]
  exact hall d hd

theorem runLoop_spec (h : Ordered q) {fuel : ℕ} (hfl : (due q q.ns).length < fuel) :
    ∃ q', runLoop handler fuel q = some (q', served handler [] (due q q.ns)) ∧ Ordered q' ∧
      q'.ns = q.ns ∧ ∀ c ∈ q'.queue, q'.ns < q'.time c := by
  induction fuel generalizing q with
  | zero => exact absurd hfl (Nat.not_lt_zero _)
  | succ fuel ih =>
    rw [runLoop]
    split
    · rename_i hq
      refine ⟨q, ?_, h, rfl, fun c hc => ?_⟩
      · rw [due, hq]
        rfl
      · rw [hq] at hc
        exact absurd hc List.not_mem_nil
    · rename_i c rest hq
      split_ifs with hc
      · obtain ⟨hnl, hall⟩ := due_eq_nil h hq hc
        exact ⟨q, by rw [hnl]; rfl, h, rfl, hall⟩
      · have hdd : due q q.ns = c :: due { q with queue := rest } q.ns := by
          rw [due, hq, List.filter_cons_of_pos (by simpa using hc)]
          rfl
        have hrs : Ordered { q with queue := rest } := h.sublist (hq ▸ List.sublist_cons_self c rest)
        obtain ⟨hac, hns, hlf⟩ := acts_spec hrs (handler c)
        change due _ q.ns = (due { q with queue := rest } q.ns).filter _ at hlf
        obtain ⟨q', hrn, hor, hns', hla⟩ := ih hac (by
          rw [hns, hlf]
          have hle := List.length_filter_le (fun d => decide (.cancel d ∉ handler c))
            (due { q with queue := rest } q.ns)
          rw [hdd, List.length_cons] at hfl
          omega)
        refine ⟨q', ?_, hor, hns'.trans hns, hla⟩
        have hsr : served handler [] (due ((handler c).foldl Queue.act { q with queue := rest })
            q.ns) = served handler (cancels handler c) (due { q with queue := rest } q.ns) := by
          rw [hlf]
          refine served_filter (fun d => ?_) _
          rw [mem_cancels, or_iff_right List.not_mem_nil, decide_eq_false_iff_not, not_not]
        rw [hrn, map_some, hns, hsr, hdd, served, if_neg List.not_mem_nil, List.nil_append]

variable {timerNs : ℕ}

theorem comSysCalloutRun_spec (handler : C → List (Action C)) (h : Ordered q)
    (hns : q.ns + timerNs < 2 ^ 64) :
    ∃ q', comSysCalloutRun timerNs q handler =
        some (q', served handler [] (due q (q.ns + timerNs))) ∧ Ordered q' ∧
      q'.ns = q.ns + timerNs ∧ ∀ c ∈ q'.queue, q'.ns < q'.time c := by
  rw [comSysCalloutRun, Nat.mod_eq_of_lt hns]
  exact runLoop_spec (q := { q with ns := q.ns + timerNs }) ⟨h.order, h.stamps⟩
    (Nat.lt_succ_of_le (List.length_filter_le _ _))

theorem Ordered.next {q' : Queue C} {e : Event C} (h : Ordered q) (he : Allowed timerNs q e)
    (hn : next timerNs q e = some q') : Ordered q' := by
  cases e with
  | add c delay | setAndEnqueue c delay => exact some.inj hn ▸ h.enqueue he.1
  | addAt c ns => exact some.inj hn ▸ h.enqueue he
  | cancel c =>
    cases hn
    rw [cancel_eq]
    exact h.sublist List.erase_sublist
  | run handler =>
    obtain ⟨q₁, hrn, hor, -⟩ := comSysCalloutRun_spec handler h he
    rw [CalloutQueue.next, hrn] at hn
    exact some.inj hn ▸ hor

end Run

def emptyQueue {C : Type*} (ns : ℕ) : Queue C := ⟨ns, [], fun _ => 0, fun _ => 0, 0⟩

end CalloutQueue
