import SalernosKernel.TlbShootdownRequests

/-! # Deadlock of TLB shootdowns

A processor can only be stuck in front of a shootdown lock whose target is itself in front of one,
with interrupts off. -/
namespace TlbShootdown

open Function
open State (goto enterIsr)
open Finset

variable {n : ℕ} {S : Setup n} {s s' : State n} {e : Event n} {a b c d t x y : Fin n} {p q : Pc n}

def Setup.callers (S : Setup n) : Finset (Fin n) :=
  univ.filter fun c => ∃ r ∈ S.calls c, S.doShootdown r

theorem LocalInvariant.mem_callers (h : LocalInvariant S s) (hc : s.pc c ≠ .idle)
    (hs : S.doShootdown (s.request c)) : c ∈ S.callers :=
  mem_filter.mpr ⟨mem_univ c, _, h.request c hc, hs⟩

def Blocked (s : State n) (c t : Fin n) : Prop := s.pc c = .sdAcquire t

section Stuck

variable (hst : ∀ e, ¬ Enabled S s e)

include hst

theorem isr_eq_none_of_stuck (c : Fin n) : s.isr c = none := by
  cases hi : s.isr c with
  | none => rfl
  | some i =>
    cases i with
    | invalidate => exact absurd hi (hst (.isrInvalidate c))
    | count => exact absurd hi (hst (.isrCount c))
    | release => exact absurd hi (hst (.isrRelease c))
    | exit => exact absurd hi (hst (.isrExit c))

theorem pc_of_stuck (hk : LockInvariant s) (c : Fin n) :
    s.pc c = .idle ∧ s.left c = [] ∨ (∃ t, Blocked s c t ∧ s.shootdownLock t) ∨
      s.pc c = .wait ∧ S.doShootdown (s.request c) ∧ s.counter c ≠ s.numOtherCpus c := by
  have hown : ∀ x, s.isr x = none := isr_eq_none_of_stuck hst
  cases hpc : s.pc c with
  | idle =>
    have hcl := hst (.call c)
    have hlf : s.left c = [] := by
      by_contra hne
      exact hcl ⟨⟨hown c, hpc⟩, hne⟩
    exact .inl ⟨rfl, hlf⟩
  | loop i =>
    by_cases hlp : S.doShootdown (s.request c) ∧ i < n
    · obtain ⟨hs, hi⟩ := hlp
      by_cases hic : i = c
      · subst hic
        exact absurd ⟨⟨hown c, hpc⟩, hs⟩ (hst (.skip c))
      · have hne : (⟨i, hi⟩ : Fin n) ≠ c := fun h => hic (congrArg Fin.val h)
        exact absurd ⟨⟨hown c, hpc⟩, hs, hne⟩ (hst (.rqEnter c ⟨i, hi⟩))
    · exact absurd ⟨⟨hown c, hpc⟩, hlp⟩ (hst (.finish c i))
  | rqAcquire t =>
    -- The holder of a run queue lock can always go on.
    have hhd : s.runqueueLock t = true := by
      by_contra hfr
      exact hst (.rqTake c t) ⟨⟨hown c, hpc⟩, Bool.eq_false_of_not_eq_true hfr⟩
    have hct := hk.runqueue t
    rw [hhd, Bool.toNat_true] at hct
    obtain ⟨x, hx⟩ := exists_of_atCount_pos (hct ▸ one_pos)
    exact absurd ⟨hown x, hx⟩ (hst (.rqDrop x t))
  | rqRelease t => exact absurd ⟨hown c, hpc⟩ (hst (.rqDrop c t))
  | rqExit t => exact absurd ⟨hown c, hpc⟩ (hst (.rqLeave c t))
  | sdEnter t => exact absurd ⟨hown c, hpc⟩ (hst (.sdEnter c t))
  | sdAcquire t =>
    have hhd : s.shootdownLock t = true := by
      by_contra hfr
      exact hst (.sdTake c t) ⟨⟨hown c, hpc⟩, Bool.eq_false_of_not_eq_true hfr⟩
    exact .inr (.inl ⟨t, hpc, hhd⟩)
  | sdPost t => exact absurd ⟨hown c, hpc⟩ (hst (.sdPost c t))
  | sdExit t => exact absurd ⟨hown c, hpc⟩ (hst (.sdLeave c t))
  | wait =>
    have hrt : ¬ (S.doShootdown (s.request c) → s.counter c = s.numOtherCpus c) :=
      fun h => hst (.ret c) ⟨⟨hown c, hpc⟩, h⟩
    push Not at hrt
    exact .inr (.inr ⟨rfl, hrt⟩)

theorem blocked_of_pending (hk : LockInvariant s) (ht : s.pending t) :
    ∃ u, Blocked s t u ∧ s.shootdownLock u := by
  have hof : ¬ (s.pc t).interruptible :=
    fun hi => hst (.irq t) ⟨ht, isr_eq_none_of_stuck hst t, hi⟩
  rcases pc_of_stuck hst hk t with ⟨hpc, -⟩ | hbl | ⟨hpc, -⟩
  · exact absurd (by rw [hpc]; rfl) hof
  · exact hbl
  · exact absurd (by rw [hpc]; rfl) hof

theorem pending_of_locked (hk : LockInvariant s) (ht : s.shootdownLock t) : s.pending t := by
  have hlc := hk.shootdown t
  have hps : atCount s (.sdPost t) = 0 := by
    by_contra hne
    obtain ⟨x, hx⟩ := exists_of_atCount_pos (Nat.pos_of_ne_zero hne)
    exact hst (.sdPost x t) ⟨isr_eq_none_of_stuck hst x, hx⟩
  have hbs : (Isr.busy (s.isr t)).toNat = 0 := by
    rw [isr_eq_none_of_stuck hst t]
    rfl
  rw [hps, hbs, ht, Bool.toNat_true] at hlc
  exact Bool.toNat_eq_one.mp (by omega)

theorem exists_blocked (hi : Invariant S s) (hc : s.pc c ≠ .idle) :
    ∃ x y, Blocked s x y ∧ s.shootdownLock y := by
  rcases pc_of_stuck hst hi.toLock c with ⟨hpc, -⟩ | ⟨t, hb⟩ | ⟨-, -, hne⟩
  · exact absurd hpc hc
  · exact ⟨c, t, hb⟩
  · have hcn := hi.toRequest.counts c hc
    have hpo : 0 < (outstandingOf s c).card := by omega
    obtain ⟨t, ht⟩ := card_pos.mp hpo
    have hno := isr_eq_none_of_stuck hst t
    have hpn : s.pending t := by
      rcases (mem_outstandingOf.mp ht).1 with (hp | hp) | hp
      · exact hp
      · simp [hno] at hp
      · simp [hno] at hp
    obtain ⟨u, hu⟩ := blocked_of_pending hst hi.toLock hpn
    exact ⟨t, u, hu⟩

end Stuck

theorem Blocked.facts (hl : LocalInvariant S s) (h : Blocked s x y) : y ≠ x ∧ x ∈ S.callers := by
  have hpl := hl.placed x
  have hpc : s.pc x = .sdAcquire y := h
  rw [hpc] at hpl
  exact ⟨hpl.1, hl.mem_callers (by simp [hpc]) hpl.2.1⟩

theorem Invariant.sender (hi : Invariant S s) (ht : s.pending t) :
    s.owner t ∈ S.callers ∧ t.val < (s.pc (s.owner t)).index := by
  obtain ⟨hs, hlt⟩ := hi.toRequest.passed t (.inl (.inl ht))
  refine ⟨hi.toLocal.mem_callers (fun hil => ?_) hs, hlt⟩
  rw [hil] at hlt
  exact Nat.not_lt_zero _ hlt

theorem not_deadlocked_of_callers_le (hi : Invariant S s) (hcr : S.callers.card ≤ 2) :
    ¬ Deadlocked S s := by
  rintro ⟨⟨c, hc⟩, hst⟩
  have hk := hi.toLock
  obtain ⟨x, y, hxy, hlk⟩ := exists_blocked hst hi hc
  have hpd := pending_of_locked hst hk hlk
  obtain ⟨z, hyz, hlo⟩ := blocked_of_pending hst hk hpd
  have hpe := pending_of_locked hst hk hlo
  obtain ⟨u, hzu, -⟩ := blocked_of_pending hst hk hpe
  obtain ⟨hny, hx⟩ := hxy.facts hi.toLocal
  obtain ⟨hnz, hy⟩ := hyz.facts hi.toLocal
  obtain ⟨-, hz⟩ := hzu.facts hi.toLocal
  have hcll : ∀ w ∈ S.callers, w = x ∨ w = y := by
    intro w hw
    by_contra hne
    push Not at hne
    have hth := two_lt_card.mpr ⟨w, hw, x, hx, y, hy, hne.1, hne.2, hny.symm⟩
    omega
  obtain rfl : z = x := (hcll z hz).resolve_right hnz
  -- Each of the two is still to reach the other, so neither can have sent to the other.
  have hpz : s.pc z = .sdAcquire y := hxy
  have hpy : s.pc y = .sdAcquire z := hyz
  obtain ⟨hoy, hly⟩ := hi.sender hpd
  obtain ⟨hoz, hlz⟩ := hi.sender hpe
  have hyz' : y.val < z.val := by
    rcases hcll _ hoy with h | h
    · rw [h, hpz] at hly
      exact absurd hly (lt_irrefl _)
    · rw [h, hpy] at hly
      exact hly
  have hzy' : z.val < y.val := by
    rcases hcll _ hoz with h | h
    · rw [h, hpz] at hlz
      exact hlz
    · rw [h, hpy] at hlz
      exact absurd hlz (lt_irrefl _)
  exact absurd hyz' (lt_asymm hzy')

def Pc.work : Pc n → ℕ
  | .idle => 0
  | .wait => 1
  | .loop i => 16 * (n - i) + 2
  | .rqAcquire t => 16 * (n - (t + 1)) + 17
  | .rqRelease t => 16 * (n - (t + 1)) + 16
  | .rqExit t => 16 * (n - (t + 1)) + 15
  | .sdEnter t => 16 * (n - (t + 1)) + 14
  | .sdAcquire t => 16 * (n - (t + 1)) + 13
  | .sdPost t => 16 * (n - (t + 1)) + 12
  | .sdExit t => 16 * (n - (t + 1)) + 6

def Isr.work : Option Isr → ℕ
  | some .invalidate => 4
  | some .count => 3
  | some .release => 2
  | some .exit => 1
  | none => 0

def callWork (s : State n) (c : Fin n) : ℕ := (s.left c).length * (16 * n + 3) + (s.pc c).work

def isrWork (s : State n) (c : Fin n) : ℕ := 5 * (s.pending c).toNat + Isr.work (s.isr c)

def work (s : State n) : ℕ := ∑ c, callWork s c + ∑ c, isrWork s c

theorem work_own (hpc : s'.pc = update s.pc c q)
    (hlf : ∀ x, x ≠ c → s'.left x = s.left x) (hir : ∀ x, isrWork s' x = isrWork s x)
    (hlt : callWork s' c < callWork s c) : work s' < work s := by
  have hrs : ∀ x, x ≠ c → callWork s' x = callWork s x := by
    intro x hx
    rw [callWork, callWork, hlf x hx, hpc, update_of_ne hx]
  have hsu := sum_change c hrs
  have hsm : ∑ x, isrWork s' x = ∑ x, isrWork s x := sum_congr rfl fun x _ => hir x
  rw [work, work, hsm]
  omega

theorem work_move (hm : Moves s s' c p q) (hlt : q.work < p.work) : work s' < work s := by
  apply work_own hm.pc
  · intro x _
    rw [hm.left]
  · intro x
    rw [isrWork, isrWork, hm.pending, hm.isr]
  · rw [callWork, callWork, hm.left, hm.pc, update_self, hm.src.2]
    exact Nat.add_lt_add_left hlt _

theorem work_handler {i : Option Isr} (hpc : s'.pc = s.pc) (hlf : s'.left = s.left)
    (hir : s'.isr = update s.isr c i)
    (hpn : ∀ x, x ≠ c → s'.pending x = s.pending x) (hlt : isrWork s' c < isrWork s c) :
    work s' < work s := by
  have hrs : ∀ x, x ≠ c → isrWork s' x = isrWork s x := by
    intro x hx
    rw [isrWork, isrWork, hpn x hx, hir, update_of_ne hx]
  have hsu := sum_change c hrs
  have hsm : ∑ x, callWork s' x = ∑ x, callWork s x := by
    apply sum_congr rfl
    intro x _
    rw [callWork, callWork, hpc, hlf]
  rw [work, work, hsm]
  omega

theorem work_sdPost (he : Enabled S s (.sdPost c t)) : work (next S s (.sdPost c t)) < work s := by
  have hpc : s.pc c = .sdPost t := he.2
  have hcl : ∀ x, x ≠ c → callWork (next S s (.sdPost c t)) x = callWork s x := by
    intro x hx
    simp [callWork, next, goto, hx]
  have hir : ∀ x, x ≠ t → isrWork (next S s (.sdPost c t)) x = isrWork s x := by
    intro x hx
    simp [isrWork, next, goto, hx]
  have hcm := sum_change c hcl
  have his := sum_change t hir
  have hsv : callWork (next S s (.sdPost c t)) c + 6 = callWork s c := by
    simp [callWork, next, goto, hpc, Pc.work]
    omega
  have hcs : isrWork (next S s (.sdPost c t)) t ≤ isrWork s t + 5 := by
    simp [isrWork, next, goto]
    omega
  rw [work, work]
  omega

theorem work_next (he : Enabled S s e) : work (next S s e) < work s := by
  cases e with
  | call c =>
    refine work_own (c := c) (q := .loop 0) rfl (fun x hx => ?_) (fun _ => rfl) ?_
    · simp [next, hx]
    · cases hlf : s.left c with
      | nil => exact absurd hlf he.2
      | cons r rs =>
        simp only [callWork, next, goto, update_self, hlf, he.1.2, Pc.work,
          List.tail_cons, List.length_cons, Nat.add_one_mul]
        omega
  | skip c | rqEnter c t | finish c i =>
    apply work_move (moves_goto he.1 _)
    simp only [Pc.work]
    omega
  | rqTake c t =>
    have hm : Moves s (next S s (.rqTake c t)) c _ (.rqRelease t) :=
      ⟨he.1, rfl, rfl, rfl, rfl, rfl, rfl, rfl, rfl, rfl, rfl, rfl⟩
    exact work_move hm (Nat.lt_succ_self _)
  | rqDrop c t =>
    have hm : Moves s (next S s (.rqDrop c t)) c _ (.rqExit t) :=
      ⟨he, rfl, rfl, rfl, rfl, rfl, rfl, rfl, rfl, rfl, rfl, rfl⟩
    exact work_move hm (Nat.lt_succ_self _)
  | rqLeave c t =>
    apply work_move (moves_goto he _)
    split
    · exact Nat.lt_succ_self _
    · simp only [Pc.work]
      omega
  | sdEnter c t =>
    apply work_move (moves_goto he _)
    exact Nat.lt_succ_self _
  | sdTake c t =>
    have hm : Moves s (next S s (.sdTake c t)) c _ (.sdPost t) :=
      ⟨he.1, rfl, rfl, rfl, rfl, rfl, rfl, rfl, rfl, rfl, rfl, rfl⟩
    exact work_move hm (Nat.lt_succ_self _)
  | sdPost c t => exact work_sdPost he
  | sdLeave c t =>
    apply work_move (moves_goto he _)
    simp only [Pc.work]
    omega
  | ret c =>
    apply work_move (moves_goto he.1 _)
    exact Nat.one_pos
  | irq c =>
    refine work_handler (c := c) (i := some .invalidate) rfl rfl rfl (fun x hx => ?_) ?_
    · simp [next, enterIsr, hx]
    · simp [isrWork, next, enterIsr, he.1, he.2.1, Isr.work]
  | isrInvalidate c | isrCount c | isrRelease c | isrExit c =>
    refine work_handler (c := c) rfl rfl rfl (fun _ _ => rfl) ?_
    simp [isrWork, next, enterIsr, show s.isr c = _ from he, Isr.work]

def Leads (S : Setup n) (s s' : State n) : Prop :=
  Runs.Reaches (fun s e => some (next S s e)) (Enabled S) s s'

theorem exists_stuck (S : Setup n) (s : State n) : ∃ s', Leads S s s' ∧ ∀ e, ¬ Enabled S s' e := by
  obtain ⟨s', hr, hed⟩ := Runs.exists_reaches_terminal work
    (fun _ _ _ he hn => Option.some.inj hn ▸ work_next he) s
  exact ⟨s', hr, fun e he => Option.some_ne_none _ (hed e he)⟩

structure Frozen (s : State n) (a b : Fin n) : Prop where
  blocked : Blocked s a b
  own : s.isr a = none
  locked : s.shootdownLock a

theorem Frozen.next (h : Frozen s a b) (hb : s.shootdownLock b) (he : Enabled S s e) :
    Frozen (next S s e) a b := by
  have hpc : s.pc a = .sdAcquire b := h.blocked
  have hown := h.own
  have hne : ∀ {c p}, At s c p → p ≠ .sdAcquire b → a ≠ c := by
    rintro c p hat hp rfl
    exact hp (hat.2.symm.trans hpc)
  have hmv : ∀ {c p}, At s c p → p ≠ .sdAcquire b → ∀ q, (s.goto c q).pc a = .sdAcquire b := by
    intro c p hat hp q
    exact (update_of_ne (hne hat hp) _ _).trans hpc
  have hil : ∀ {c i}, s.isr c = some i → a ≠ c := by
    rintro c i hi rfl
    simp [hown] at hi
  have hir : ∀ {c i}, s.isr c = some i → ∀ j, (s.enterIsr c j).isr a = none := by
    intro c i hi j
    exact (update_of_ne (hil hi) _ _).trans hown
  cases e with
  | call c | skip c | rqEnter c t | rqTake c t | finish c i | ret c =>
      exact ⟨hmv he.1 (by simp) _, hown, h.locked⟩
  | rqDrop c t | rqLeave c t | sdEnter c t | sdPost c t | sdLeave c t =>
      exact ⟨hmv he (by simp) _, hown, h.locked⟩
  | sdTake c t =>
    have htb : t ≠ b := by
      rintro rfl
      simp [he.2] at hb
    refine ⟨hmv he.1 (by simp [htb]) _, hown, ?_⟩
    simp only [next, update_apply]
    split
    · rfl
    · exact h.locked
  | irq c =>
    have hac : a ≠ c := by
      rintro rfl
      have hon := he.2.2
      rw [hpc] at hon
      simp [Pc.interruptible] at hon
    refine ⟨hpc, ?_, h.locked⟩
    simpa [next, enterIsr, hac] using hown
  | isrInvalidate c | isrCount c | isrExit c => exact ⟨hpc, hir he _, h.locked⟩
  | isrRelease c =>
    refine ⟨hpc, hir he _, ?_⟩
    simpa [next, enterIsr, hil he] using h.locked

theorem Leads.frozen (hr : Leads S s s') (ha : Frozen s a b) (hb : Frozen s b a) :
    Frozen s' a b ∧ Frozen s' b a := by
  apply Runs.Reaches.invariant hr fun u => Frozen u a b ∧ Frozen u b a
  · exact ⟨ha, hb⟩
  · intro u e u' hu he hn
    obtain rfl : next S u e = u' := Option.some.inj hn
    exact ⟨hu.1.next hu.2.locked he, hu.2.next hu.1.locked he⟩

theorem exists_deadlocked (hr : Reached S s) (ha : Frozen s a b) (hb : Frozen s b a) :
    ∃ s', Reached S s' ∧ Deadlocked S s' := by
  obtain ⟨s', hld, hst⟩ := exists_stuck S s
  have hpc : s'.pc a = .sdAcquire b := (hld.frozen ha hb).1.blocked
  refine ⟨s', Runs.Reaches.trans hr hld, ⟨a, ?_⟩, hst⟩
  simp [hpc]

structure Calm (X : Finset (Fin n)) (s : State n) : Prop where
  isr : ∀ c, s.isr c = none
  interruptible : ∀ c, (s.pc c).interruptible
  runqueueLock : ∀ c, s.runqueueLock c = false
  pending : ∀ c, s.pending c = decide (c ∈ X)
  shootdownLock : ∀ c, s.shootdownLock c = decide (c ∈ X)

structure Advances (S : Setup n) (c : Fin n) (p : Pc n) (s s' : State n) : Prop where
  leads : Leads S s s'
  pc : s'.pc = update s.pc c p
  request : S.doShootdown (s'.request c)
  left : ∀ x, x ≠ c → s'.left x = s.left x

theorem Leads.cons (he : Enabled S s e) (h : Leads S (next S s e) s') : Leads S s s' :=
  Runs.Reaches.trans (.step .start he rfl) h

theorem Advances.trans {s₁ s₂ s₃ : State n} (h : Advances S c p s₁ s₂) (h' : Advances S c q s₂ s₃) :
    Advances S c q s₁ s₃ := by
  refine ⟨Runs.Reaches.trans h.leads h'.leads, ?_, h'.request, fun x hx => ?_⟩
  · rw [h'.pc, h.pc, update_idem]
  · rw [h'.left x hx, h.left x hx]

theorem Advances.pc_self (h : Advances S c p s s') : s'.pc c = p := by
  rw [h.pc, update_self]

theorem Advances.pc_of_ne (h : Advances S c p s s') (hx : x ≠ c) : s'.pc x = s.pc x := by
  rw [h.pc, update_of_ne hx]

variable {X : Finset (Fin n)}

theorem Calm.initial (S : Setup n) : Calm ∅ (initial S) :=
  ⟨fun _ => rfl, fun _ => rfl, fun _ => rfl, fun _ => rfl, fun _ => rfl⟩

theorem interruptible_update (h : ∀ x, (s.pc x).interruptible) (hp : p.interruptible) :
    ∀ x, (update s.pc c p x).interruptible := by
  intro x
  rw [update_apply]
  split
  · exact hp
  · exact h x

theorem Calm.visit (h : Calm X s) (hpc : s.pc c = .loop t) (hs : S.doShootdown (s.request c))
    (htc : t ≠ c) :
    ∃ s', Calm X s' ∧ Advances S c (if S.runs t then .sdEnter t else .loop (t + 1)) s s' := by
  refine ⟨next S (next S (next S (next S s (.rqEnter c t)) (.rqTake c t)) (.rqDrop c t))
    (.rqLeave c t), ?_, ?_, ?_, hs, fun _ _ => rfl⟩
  · refine ⟨h.isr, ?_, ?_, h.pending, h.shootdownLock⟩
    · simp only [next, goto, update_idem]
      apply interruptible_update h.interruptible
      split <;> rfl
    · intro x
      by_cases hx : x = t <;> simp [next, goto, hx, h.runqueueLock]
  · have hown := h.isr c
    have hen : Enabled S s (.rqEnter c t) := ⟨⟨hown, hpc⟩, hs, htc⟩
    refine .cons hen (.cons ?_ (.cons ?_ (.cons ?_ .start)))
    · simp [Enabled, At, next, goto, hown, h.runqueueLock]
    · simp [Enabled, At, next, goto, hown]
    · simp [Enabled, At, next, goto, hown]
  · simp [next, goto]

theorem Calm.post (h : Calm X s) (hpc : s.pc c = .sdEnter t) (hs : S.doShootdown (s.request c))
    (ht : t ∉ X) : ∃ s', Calm (insert t X) s' ∧ Advances S c (.loop (t + 1)) s s' := by
  refine ⟨next S (next S (next S (next S s (.sdEnter c t)) (.sdTake c t)) (.sdPost c t))
    (.sdLeave c t), ?_, ?_, ?_, hs, fun _ _ => rfl⟩
  · refine ⟨h.isr, ?_, h.runqueueLock, ?_, ?_⟩
    · simp only [next, goto, update_idem]
      exact interruptible_update h.interruptible rfl
    · intro x
      by_cases hx : x = t <;> simp [next, goto, hx, h.pending]
    · intro x
      by_cases hx : x = t <;> simp [next, goto, hx, h.shootdownLock]
  · have hown := h.isr c
    have hen : Enabled S s (.sdEnter c t) := ⟨hown, hpc⟩
    refine .cons hen (.cons ?_ (.cons ?_ (.cons ?_ .start)))
    · simp [Enabled, At, next, goto, hown, h.shootdownLock, ht]
    · simp [Enabled, At, next, goto, hown]
    · simp [Enabled, At, next, goto, hown]
  · simp [next, goto]

theorem Calm.serve (h : Calm (insert t X) s) (ht : t ∉ X) (hs : S.doShootdown (s.request c)) :
    ∃ s', Calm X s' ∧ Advances S c (s.pc c) s s' := by
  refine ⟨next S (next S (next S (next S (next S s (.irq t)) (.isrInvalidate t)) (.isrCount t))
    (.isrRelease t)) (.isrExit t), ?_, ?_, ?_, hs, fun _ _ => rfl⟩
  · refine ⟨?_, h.interruptible, h.runqueueLock, ?_, ?_⟩
    · intro x
      by_cases hx : x = t <;> simp [next, enterIsr, hx, h.isr]
    · intro x
      by_cases hx : x = t <;> simp [next, enterIsr, hx, h.pending, ht]
    · intro x
      by_cases hx : x = t <;> simp [next, enterIsr, hx, h.shootdownLock, ht]
  · have hiq : Enabled S s (.irq t) := ⟨by simp [h.pending], h.isr t, h.interruptible t⟩
    refine .cons hiq (.cons ?_ (.cons ?_ (.cons ?_ (.cons ?_ .start))))
    · simp [Enabled, next, enterIsr]
    · simp [Enabled, next, enterIsr]
    · simp [Enabled, next, enterIsr]
    · simp [Enabled, next, enterIsr]
  · simp [next, enterIsr]

theorem Calm.pass (h : Calm X s) (hpc : s.pc c = .loop t) (hs : S.doShootdown (s.request c))
    (ht : t ∉ X) : ∃ s', Calm X s' ∧ Advances S c (.loop (t + 1)) s s' := by
  by_cases htc : t = c
  · subst htc
    refine ⟨next S s (.skip t), ⟨h.isr, ?_, h.runqueueLock, h.pending, h.shootdownLock⟩, ?_, rfl,
      hs, fun _ _ => rfl⟩
    · exact interruptible_update h.interruptible rfl
    · have hsk : Enabled S s (.skip t) := ⟨⟨h.isr t, hpc⟩, hs⟩
      exact .cons hsk .start
  · obtain ⟨s₁, h₁, hvs⟩ := h.visit hpc hs htc
    cases hr : S.runs t with
    | false =>
      rw [hr] at hvs
      exact ⟨s₁, h₁, hvs⟩
    | true =>
      rw [hr] at hvs
      obtain ⟨s₂, h₂, hps⟩ := h₁.post hvs.pc_self hvs.request ht
      obtain ⟨s₃, h₃, hsr⟩ := h₂.serve ht hps.request
      rw [hps.pc_self] at hsr
      exact ⟨s₃, h₃, (hvs.trans hps).trans hsr⟩

theorem Calm.walk (h : Calm X s) {i j : ℕ} (hij : i ≤ j) (hj : j ≤ n) (hpc : s.pc c = .loop i)
    (hs : S.doShootdown (s.request c)) (hX : ∀ t ∈ X, t.val < i ∨ j ≤ t.val) :
    ∃ s', Calm X s' ∧ Advances S c (.loop j) s s' := by
  induction j, hij using Nat.le_induction with
  | base =>
    exact ⟨s, h, .start, by rw [← hpc, update_eq_self], hs, fun _ _ => rfl⟩
  | succ j hij ih =>
    obtain ⟨s₁, h₁, hwk⟩ := ih (by omega) fun t ht => by
      have := hX t ht
      omega
    have hfr : (⟨j, hj⟩ : Fin n) ∉ X := by
      intro ht
      have := hX _ ht
      simp only at this
      omega
    obtain ⟨s₂, h₂, hpss⟩ := h₁.pass (t := ⟨j, hj⟩) hwk.pc_self hwk.request hfr
    exact ⟨s₂, h₂, hwk.trans hpss⟩

theorem Calm.begin (h : Calm X s) (hpc : s.pc c = .idle) (hlf : ∃ r ∈ s.left c, S.doShootdown r) :
    ∃ s', Calm X s' ∧ Advances S c (.loop 0) s s' := by
  induction hl : s.left c generalizing s with
  | nil => simp [hl] at hlf
  | cons r rs ih =>
    have hown := h.isr c
    have hcl : Enabled S s (.call c) := ⟨⟨hown, hpc⟩, by simp [hl]⟩
    by_cases hr : S.doShootdown r
    · refine ⟨next S s (.call c), ⟨h.isr, ?_, h.runqueueLock, h.pending, h.shootdownLock⟩,
        .cons hcl .start, rfl, ?_, fun x hx => ?_⟩
      · exact interruptible_update h.interruptible rfl
      · simpa [next, hl] using hr
      · simp [next, hx]
    · have hclm : Calm X (next S (next S (next S s (.call c)) (.finish c 0)) (.ret c)) := by
        refine ⟨h.isr, ?_, h.runqueueLock, h.pending, h.shootdownLock⟩
        simp only [next, goto, update_idem]
        exact interruptible_update h.interruptible rfl
      obtain ⟨s', h', hbg⟩ := ih hclm (by simp [next, goto])
        (by simpa [next, goto, hl, hr] using hlf) (by simp [next, goto, hl])
      refine ⟨s', h', .cons hcl (.cons ?_ (.cons ?_ hbg.leads)), ?_, hbg.request, ?_⟩
      · simp [Enabled, At, next, goto, hown, hl, hr]
      · simp [Enabled, At, next, goto, hown, hl, hr]
      · rw [hbg.pc]
        simp [next, goto]
      · intro x hx
        rw [hbg.left x hx]
        simp [next, goto, hx]

theorem Calm.arrive (h : Calm ∅ s) (hpc : s.pc c = .idle) (hlf : ∃ r ∈ s.left c, S.doShootdown r)
    (htc : t ≠ c) (ht : S.runs t) : ∃ s', Calm ∅ s' ∧ Advances S c (.sdEnter t) s s' := by
  obtain ⟨s₁, h₁, hbg⟩ := h.begin hpc hlf
  obtain ⟨s₂, h₂, hwk⟩ :=
    h₁.walk (Nat.zero_le t) t.isLt.le hbg.pc_self hbg.request (by simp)
  obtain ⟨s₃, h₃, hvs⟩ := h₂.visit hwk.pc_self hwk.request htc
  rw [if_pos ht] at hvs
  exact ⟨s₃, h₃, (hbg.trans hwk).trans hvs⟩

theorem Calm.occupy (h : Calm ∅ s) (hpc : s.pc c = .idle) (hlf : ∃ r ∈ s.left c, S.doShootdown r)
    (hab : a < b) (hac : a ≠ c) (hbc : b ≠ c) (ha : S.runs a) (hb : S.runs b) :
    ∃ s', Calm (insert b (insert a ∅)) s' ∧ Advances S c (.loop (b + 1)) s s' := by
  obtain ⟨s₁, h₁, har⟩ := h.arrive hpc hlf hac ha
  obtain ⟨s₂, h₂, hps⟩ := h₁.post har.pc_self har.request (notMem_empty a)
  obtain ⟨s₃, h₃, hwk⟩ := h₂.walk (Nat.succ_le_of_lt hab) b.isLt.le hps.pc_self hps.request
    (by simp)
  obtain ⟨s₄, h₄, hvs⟩ := h₃.visit hwk.pc_self hwk.request hbc
  rw [if_pos hb] at hvs
  obtain ⟨s₅, h₅, hps'⟩ := h₄.post hvs.pc_self hvs.request (by simp [hab.ne'])
  exact ⟨s₅, h₅, (((har.trans hps).trans hwk).trans hvs).trans hps'⟩

theorem mem_callers_runs (h : c ∈ S.callers) : S.runs c := by
  obtain ⟨r, hr, -⟩ := (mem_filter.mp h).2
  exact S.calls_runs c (List.ne_nil_of_mem hr)

theorem exists_deadlocked_of_lt (ha : a ∈ S.callers) (hb : b ∈ S.callers) (hd : d ∈ S.callers)
    (hab : a < b) (had : a ≠ d) (hbd : b ≠ d) : ∃ s, Reached S s ∧ Deadlocked S s := by
  have hra := mem_callers_runs ha
  have hrb := mem_callers_runs hb
  obtain ⟨-, hca⟩ := mem_filter.mp ha
  obtain ⟨-, hcb⟩ := mem_filter.mp hb
  obtain ⟨-, hcd⟩ := mem_filter.mp hd
  obtain ⟨s₁, h₁, hav₁⟩ := (Calm.initial S).arrive (c := b) rfl hcb hab.ne hra
  have hid : s₁.pc a = .idle := hav₁.pc_of_ne hab.ne
  obtain ⟨s₂, h₂, hav₂⟩ := h₁.arrive hid (by rw [hav₁.left a hab.ne]; exact hca) hab.ne' hrb
  have hidd : s₂.pc d = .idle :=
    (hav₂.pc_of_ne had.symm).trans (hav₁.pc_of_ne hbd.symm)
  have hlft : s₂.left d = S.calls d :=
    (hav₂.left d had.symm).trans (hav₁.left d hbd.symm)
  obtain ⟨s₃, h₃, hav₃⟩ := h₂.occupy hidd (by rw [hlft]; exact hcd) hab had hbd hra hrb
  have hpa : s₃.pc a = .sdEnter b := (hav₃.pc_of_ne had).trans hav₂.pc_self
  have hpb : s₃.pc b = .sdEnter a :=
    (hav₃.pc_of_ne hbd).trans ((hav₂.pc_of_ne hab.ne').trans hav₁.pc_self)
  -- Both turn interrupts off before the IPIs arrive.
  have hrc : Reached S (next S (next S s₃ (.sdEnter a b)) (.sdEnter b a)) := by
    have het : Enabled S s₃ (.sdEnter a b) := ⟨h₃.isr a, hpa⟩
    have heb : Enabled S (next S s₃ (.sdEnter a b)) (.sdEnter b a) := by
      refine ⟨h₃.isr b, ?_⟩
      simpa [next, goto, hab.ne'] using hpb
    apply Runs.Reaches.trans hav₁.leads
    apply Runs.Reaches.trans hav₂.leads
    apply Runs.Reaches.trans hav₃.leads
    exact Leads.cons het (.cons heb .start)
  apply exists_deadlocked hrc (a := a) (b := b)
  · refine ⟨?_, h₃.isr a, ?_⟩
    · simp [Blocked, next, goto, hab.ne]
    · simp [next, goto, h₃.shootdownLock]
  · refine ⟨?_, h₃.isr b, ?_⟩
    · simp [Blocked, next, goto]
    · simp [next, goto, h₃.shootdownLock]

theorem exists_deadlocked_of_callers (h : 2 < S.callers.card) :
    ∃ s, Reached S s ∧ Deadlocked S s := by
  obtain ⟨a, ha, b, hb, d, hd, hab, had, hbd⟩ := two_lt_card.mp h
  rcases lt_or_gt_of_ne hab with hlt | hlt
  · exact exists_deadlocked_of_lt ha hb hd hlt had hbd
  · exact exists_deadlocked_of_lt hb ha hd hlt hbd had

theorem ran_of_ret (hi : Invariant S s) (he : Enabled S s (.ret c)) (ht : t ∈ s.targeted c) :
    t ∈ s.ran c := by
  have hbs : s.pc c ≠ .idle := by simp [he.1.2]
  rcases hi.toRequest.ran c hbs t ht with hrn | ⟨hw, how, -⟩
  · exact hrn
  · have hsh := ((hi.toRequest.targets c hbs t).mp ht).1
    have hcn := hi.toRequest.counts c hbs
    rw [he.2 hsh] at hcn
    have hpo : 0 < (outstandingOf s c).card :=
      card_pos.mpr ⟨t, mem_outstandingOf.mpr ⟨.inl hw, how⟩⟩
    omega

theorem targeted_of_ret (hi : Invariant S s) (he : Enabled S s (.ret c)) :
    t ∈ s.targeted c ↔ S.doShootdown (s.request c) ∧ S.runs t ∧ t ≠ c := by
  have hbs : s.pc c ≠ .idle := by simp [he.1.2]
  rw [hi.toRequest.targets c hbs t, he.1.2]
  constructor
  · rintro ⟨hs, hr, hne, -⟩
    exact ⟨hs, hr, hne⟩
  · rintro ⟨hs, hr, hne⟩
    exact ⟨hs, hr, hne, t.isLt⟩

/-- Two callers cannot deadlock and three can. -/
theorem deadlock_free_iff (S : Setup n) :
    ((∀ s, Reached S s → ¬ Deadlocked S s) ↔ S.callers.card ≤ 2) ∧
      ∀ s c, Reached S s → Enabled S s (.ret c) → s.targeted c ⊆ s.ran c ∧
        ∀ t, t ∈ s.targeted c ↔ S.doShootdown (s.request c) ∧ S.runs t ∧ t ≠ c := by
  refine ⟨⟨fun h => ?_, fun h s hs => ?_⟩, ?_⟩
  · by_contra hcr
    obtain ⟨s, hs, hdd⟩ := exists_deadlocked_of_callers (Nat.lt_of_not_le hcr)
    exact h s hs hdd
  · exact not_deadlocked_of_callers_le hs.invariant h
  · intro s c hs he
    exact ⟨fun t ht => ran_of_ret hs.invariant he ht, fun t => targeted_of_ret hs.invariant he⟩

def twoCallers : Setup 3 where
  runs _ := true
  calls c := if c = 2 then [] else [⟨0x1000, 1⟩, ⟨0x5000, 2⟩]
  calls_runs _ _ := rfl

theorem two_callers_deadlock_free :
    twoCallers.callers.card = 2 ∧ ∀ s, Reached twoCallers s → ¬ Deadlocked twoCallers s :=
  ⟨by decide, (deadlock_free_iff twoCallers).1.mpr (by decide)⟩

def threeCallers : Setup 3 where
  runs _ := true
  calls _ := [⟨0x1000, 1⟩]
  calls_runs _ _ := rfl

/-- Processors 0 and 1 find each other, processor 2 takes both their locks and waits, and then
they turn interrupts off. -/
def threeCallersTrace : List (Event 3) :=
  [.call 0, .skip 0, .rqEnter 0 1, .rqTake 0 1, .rqDrop 0 1, .rqLeave 0 1,
    .call 1, .rqEnter 1 0, .rqTake 1 0, .rqDrop 1 0, .rqLeave 1 0,
    .call 2, .rqEnter 2 0, .rqTake 2 0, .rqDrop 2 0, .rqLeave 2 0,
    .sdEnter 2 0, .sdTake 2 0, .sdPost 2 0, .sdLeave 2 0,
    .rqEnter 2 1, .rqTake 2 1, .rqDrop 2 1, .rqLeave 2 1,
    .sdEnter 2 1, .sdTake 2 1, .sdPost 2 1, .sdLeave 2 1, .skip 2, .finish 2 3,
    .sdEnter 0 1, .sdEnter 1 0]

def threeCallersEnd : State 3 := threeCallersTrace.foldl (next threeCallers) (initial threeCallers)

theorem three_callers_deadlock :
    Reached threeCallers threeCallersEnd ∧ Deadlocked threeCallers threeCallersEnd := by
  constructor
  · have hru : Runs.run (fun s e => some (next threeCallers s e)) (Enabled threeCallers)
        (initial threeCallers) threeCallersTrace = some threeCallersEnd := by
      rfl
    exact Runs.run_reaches hru
  · refine ⟨⟨0, by decide⟩, ?_⟩
    have hpc : ∀ c, threeCallersEnd.pc c = .sdAcquire 1 ∨ threeCallersEnd.pc c = .sdAcquire 0 ∨
        threeCallersEnd.pc c = .wait := by decide
    intro e
    cases e with
    | call c | skip c | ret c | irq c | isrInvalidate c | isrCount c | isrRelease c | isrExit c =>
        revert c; decide
    | rqEnter c t | rqTake c t | rqDrop c t | rqLeave c t | sdEnter c t | sdTake c t
    | sdPost c t | sdLeave c t => revert c t; decide
    | finish c i =>
      rintro ⟨⟨-, hc⟩, -⟩
      have := hpc c
      simp [hc] at this

end TlbShootdown
