import SalernosKernel.WaitPid

/-! # What `waitpid` promises

When a step of `waitpid` keeps its contract, in every state that `fork`, `exit` and `waitpid` can
reach. -/
namespace WaitPidContract

open ProcessTable hiding State
open ProcessReferences WaitPid Option

def Left (s : State) (p c : ℕ) : Prop :=
  Created s.table c ∧ (facts s.table c).parentPid = p ∧ s.returned c = 0

def ExitedLeft (s : State) (p c : ℕ) : Prop := Left s p c ∧ (facts s.table c).exited = true

structure Contract (s : State) (p : ℕ) (pid : ℤ) (o : Outcome) : Prop where
  reaps : pid = -1 → (∃ c, ExitedLeft s p c) → ∃ c status, ExitedLeft s p c ∧ o = .ok c status
  once : ∀ c status, o = .ok c status → Created s.table c → (facts s.table c).exited = true →
    s.returned c = 0
  echild : o = .error .ECHILD → ∀ c, Left s p c → ¬ (pid = -1 ∨ pid = c)

/-- No child that has exited is left to `waitpid(-1)`, and none is asked for again that still has a
reference. -/
structure CallCondition (s : State) (p : ℕ) (pid : ℤ) : Prop where
  any : pid = -1 → ∀ c, ¬ ExitedLeft s p c
  again : ∀ c : ℕ, pid = c → Created s.table c → (facts s.table c).parentPid = p →
    (facts s.table c).exited = true → s.returned c ≠ 0 →
    (facts s.table c).numRef = 0 ∨ SignalPending s p

/-- The child that was picked has exited, if any has, and no signal comes first. -/
def RoundCondition (s : State) (p : ℕ) (k : Call) : Prop :=
  k.pid = -1 → (∃ c, ExitedLeft s p c) →
    (facts s.table k.towait).exited = true ∧ ¬ SignalPending s p

variable {past : ℕ → ℕ} {s s' : State} {p q c : ℕ} {k : Call} {o : Outcome} {pid : ℤ}
  {flags : BitVec 32} {stale : ℕ → Option ℕ} {memory : Signals.Signal → Option Signals.Sigaction}
  {table : ProcessTable.State}

theorem Invariant.fork (h : Invariant s) (hp : InUser s p)
    (hfr : comSysSyscallFork s.table p memory = some (c, table)) :
    Invariant { s with table := table } := by
  obtain ⟨hcl, hct, -⟩ := hp
  obtain ⟨-, hin, had⟩ := fork_spec h.indexed hct hfr
  have hne : s.table.nextPid ≠ p := hct.2.ne'
  have hcs : ∀ q, Created table q → q = s.table.nextPid ∨ Created s.table q := by
    rintro q ⟨hps, hlt⟩
    rw [had.nextPid] at hlt
    rcases Nat.lt_succ_iff_lt_or_eq.mp hlt with hlt | heq
    · exact .inr ⟨hps, hlt⟩
    · exact .inl heq
  have hold : ∀ q, Created s.table q → facts table q =
      { facts s.table q with numChildren := (facts table q).numChildren } ∧
      (facts s.table q).numChildren ≤ (facts table q).numChildren := by
    intro q hq
    rw [had.facts, if_neg hq.2.ne]
    by_cases hqp : q = p
    · subst hqp
      simp [Facts.addChild]
    · simp [hqp]
  have hpn : ∀ q, Created s.table q →
      (facts table q).parentPid = (facts s.table q).parentPid := fun q hq => by rw [(hold q hq).1]
  have hnw : facts table s.table.nextPid = ⟨p, 0, 2, false⟩ := by rw [had.facts, if_pos rfl]
  have hfrs := h.fresh _ le_rfl
  refine ⟨⟨hin, ?_, ?_, ?_, ?_, ?_, ?_⟩, h.unreturned⟩
  · intro q hq
    rcases hcs q hq with rfl | hq
    · rw [hnw]
      exact hct.2
    · rw [hpn q hq]
      exact h.parent_lt q hq
  · intro q hq hpr
    rcases hcs q hq with rfl | hq
    · rw [hnw, had.facts, if_neg hne.symm, if_pos rfl]
      exact Nat.le_add_left 1 _
    · rw [hpn q hq] at hpr ⊢
      have hlt := h.parent_lt q hq
      have hpa : Created s.table (facts s.table q).parentPid := ⟨hpr.1, hlt.trans hq.2⟩
      exact (h.numChildren_pos q hq hpa).trans (hold _ hpa).2
  · intro q hq
    rcases hcs q hq with rfl | hq
    · have hbl : blockedOn { s with table := table } s.table.nextPid = 0 :=
        blockedOn_of_none hcl (by rw [hnw])
      simp [owed, hfrs, hbl, hnw]
    · have hbl : blockedOn { s with table := table } q = blockedOn s q := by
        simp only [blockedOn, hpn q hq]
      rw [owed, hbl, (hold q hq).1]
      exact h.held q hq
  · intro q hq het
    rcases hcs q hq with rfl | hq
    · exact hfrs
    · rw [(hold q hq).1] at het
      exact h.live q hq het
  · intro q hq
    rw [had.nextPid] at hq
    exact h.fresh q (Nat.le_of_succ_le hq)
  · intro q j hj
    obtain ⟨⟨hps, hlt⟩, hpr⟩ := h.waiting q j hj
    refine ⟨⟨hps, ?_⟩, ?_⟩
    · rw [had.nextPid]
      omega
    · exact (hpn _ ⟨hps, hlt⟩).trans hpr

theorem Invariant.exit (h : Invariant s) (p : ℕ) (status : ℤ) :
    Invariant { s with table := comSysProcExit s.table p status (waiters s p) } := by
  obtain ⟨hin, hei⟩ := exit_spec h.indexed p status (waiters s p)
  have hct : ∀ q, Created (comSysProcExit s.table p status (waiters s p)) q ↔
      Created s.table q := fun _ => created_iff hei.nextPid
  have how : ∀ q, owed { s with table := comSysProcExit s.table p status (waiters s p) } q =
      owed s q := fun q => by
    simp only [owed, blockedOn, hei.parentPid]
  refine ⟨⟨hin, ?_, ?_, ?_, ?_, ?_, ?_⟩, h.unreturned⟩
  · intro q hq
    rw [hei.parentPid]
    exact h.parent_lt q ((hct q).mp hq)
  · intro q hq
    rw [hei.parentPid, hei.numChildren, hct]
    exact h.numChildren_pos q ((hct q).mp hq)
  · intro q hq
    rw [how]
    exact (h.held q ((hct q).mp hq)).trans (hei.numRef q)
  · intro q hq het
    rw [hei.exited] at het
    split at het
    · cases het
    · exact h.live q ((hct q).mp hq) het
  · intro q hq
    rw [hei.nextPid] at hq
    exact h.fresh q hq
  · intro q j hj
    rw [hct, hei.parentPid]
    exact h.waiting q j hj

theorem Invariant.resume (h : Invariant s) {P : Signals.Thread → Prop} (hk : s.call p = some k)
    (hp : Live s p P) : ∃ o s', waitpidProc s p k = some (o, s') ∧ Invariant s' ∧ Ends s p k o := by
  obtain ⟨-, -, t, ht, -⟩ := hp
  exact h.toCore.round hk (fun q j _ hj => h.unreturned q j hj) ht

theorem Invariant.leave (h : Invariant s) (past : ℕ → ℕ) (p : ℕ) (o : Outcome) :
    Invariant (leave past p (o, s)) := by
  cases o with
  | blocked => exact h
  | ok ret status | error err => exact h.dispatch past p

theorem Invariant.next {e : Event} (h : Invariant s) (he : Enabled s e)
    (hnx : next past s e = some s') : Invariant s' := by
  cases e with
  | fork p memory =>
    obtain ⟨⟨c, table⟩, hfr, rfl⟩ := map_eq_some_iff.mp hnx
    exact WaitPid.Invariant.dispatch (Invariant.fork h he hfr) past p
  | exit p status =>
    cases hnx
    exact Invariant.exit h p status
  | waitpid p stale pid flags =>
    obtain ⟨o, t, hcl, hiv, -⟩ := h.waitpid he.1 he.2 pid flags
    obtain ⟨r, hr, rfl⟩ := map_eq_some_iff.mp hnx
    obtain rfl : (o, t) = r := some.inj (hcl.symm.trans hr)
    exact Invariant.leave hiv past p o
  | resume p =>
    obtain ⟨k, hk⟩ := isSome_iff_exists.mp he.1
    obtain ⟨o, t, hpc, hiv, -⟩ := Invariant.resume h hk he.2
    rw [WaitPid.next, hk, bind_some, hpc, map_some] at hnx
    cases hnx
    exact Invariant.leave hiv past p o
  | interrupt p =>
    cases hnx
    exact h.dispatch past p

theorem invariant_init (h : comInitPid1 memory = some table) :
    Invariant ⟨table, fun _ => none, fun _ => 0⟩ := by
  obtain ⟨hin, hnx, hfs⟩ := init_spec h
  have hon : ∀ c, Created table c → c = 1 := by
    rintro c ⟨hps, hlt⟩
    omega
  refine ⟨⟨hin, ?_, ?_, ?_, ?_, ?_, ?_⟩, by simp⟩
  · intro c hc
    obtain rfl := hon c hc
    simp [hfs]
  · intro c hc hpr
    obtain rfl := hon c hc
    simp only [hfs] at hpr
    exact absurd hpr.1 (by decide)
  · intro c hc
    obtain rfl := hon c hc
    simp [owed, blockedOn, hfs]
  · simp
  · simp
  · simp

theorem Reached.invariant (h : Reached past s) : Invariant s := by
  obtain ⟨memory, table, hii, hru⟩ := h
  exact hru.invariant Invariant (invariant_init hii) fun _ _ _ hi he hn => Invariant.next hi he hn

def ReturnsNone (s : State) (o : Outcome) : Prop :=
  ∀ c status, o = .ok c status → Created s.table c → (facts s.table c).exited = false

theorem Contract.not_due (h : Contract s p pid o) (hno : ReturnsNone s o) (hpd : pid = -1) :
    ¬ ExitedLeft s p c := by
  intro hc
  obtain ⟨d, status, hd, ho⟩ := h.reaps hpd ⟨c, hc⟩
  exact Bool.false_ne_true ((hno d status ho hd.1.1).symm.trans hd.2)

theorem contract_of_not_due (hno : ReturnsNone s o) (hde : pid = -1 → ∀ c, ¬ ExitedLeft s p c)
    (hec : o = .error .ECHILD → ∀ c, Left s p c → ¬ (pid = -1 ∨ pid = c)) :
    Contract s p pid o where
  reaps hpd := fun ⟨c, hc⟩ => absurd hc (hde hpd c)
  once c status ho hc het := absurd ((hno c status ho hc).symm.trans het) Bool.false_ne_true
  echild := hec

theorem contract_iff_not_due (hno : ReturnsNone s o) (hec : o ≠ .error .ECHILD) :
    Contract s p pid o ↔ (pid = -1 → ∀ c, ¬ ExitedLeft s p c) :=
  ⟨fun h hpd _ => h.not_due hno hpd,
    fun hde => contract_of_not_due hno hde fun ho => absurd ho hec⟩

theorem returnsNone_of_live (hlv : (facts s.table c).exited = false) (status : Option ℕ) :
    ReturnsNone s (.ok c status) := by
  rintro d _ ⟨rfl, -⟩ -
  exact hlv

theorem returnsNone_zero : ReturnsNone s (.ok 0 none) := by
  rintro d _ ⟨rfl, -⟩ hd
  exact absurd hd.1 (by decide)

theorem Ends.contract_iff (he : Ends s p k o) :
    (∃ status, o = .ok k.towait status ∧ ¬ SignalPending s p ∧
      (facts s.table k.towait).exited = true) ∨
    ((SignalPending s p ∨ (facts s.table k.towait).exited = false) ∧
      ∀ pid, Contract s p pid o ↔ (pid = -1 → ∀ c, ¬ ExitedLeft s p c)) := by
  cases he with
  | interrupted hsg =>
    exact .inr ⟨.inl hsg, fun pid => contract_iff_not_due (by simp [ReturnsNone]) (by simp)⟩
  | exited status hsg het => exact .inl ⟨status, rfl, hsg, het⟩
  | stopped status hlv =>
    exact .inr ⟨.inr hlv, fun pid =>
      contract_iff_not_due (returnsNone_of_live hlv status) (by simp)⟩
  | nohang hlv =>
    exact .inr ⟨.inr hlv, fun pid => contract_iff_not_due returnsNone_zero (by simp)⟩
  | blocked hlv =>
    exact .inr ⟨.inr hlv, fun pid => contract_iff_not_due (by simp [ReturnsNone]) (by simp)⟩

theorem Invariant.contract_resume (h : Invariant s) (hk : s.call p = some k) (he : Ends s p k o) :
    Contract s p k.pid o ↔ RoundCondition s p k := by
  obtain ⟨hc, hpr⟩ := h.waiting p k hk
  have hz := h.unreturned p k hk
  rcases Ends.contract_iff he with ⟨status, rfl, hsg, het⟩ | ⟨hwh, hif⟩
  · refine iff_of_true ⟨fun _ _ => ⟨k.towait, status, ⟨⟨hc, hpr, hz⟩, het⟩, rfl⟩, ?_,
      by simp⟩ fun _ _ => ⟨het, hsg⟩
    rintro c _ ⟨rfl, -⟩ - -
    exact hz
  · rw [hif]
    constructor
    · rintro hde hpd ⟨c, hde'⟩
      exact absurd hde' (hde hpd c)
    · intro hrn hpd c hde
      obtain ⟨het, hsg⟩ := hrn hpd ⟨c, hde⟩
      exact hwh.elim hsg fun hlv => Bool.false_ne_true (hlv.symm.trans het)

theorem Invariant.contract_call (h : Invariant s) (he : CallEnds s p pid o) :
    Contract s p pid o ↔ CallCondition s p pid := by
  cases he with
  | nosys hneg =>
    refine iff_of_true (contract_of_not_due (by simp [ReturnsNone]) (fun hpd => by omega)
      (by simp)) ⟨fun hpd => by omega, fun c hpd => by omega⟩
  | nobody hnobody hgn =>
    have hno : ReturnsNone s (.error .ECHILD) := by simp [ReturnsNone]
    refine ⟨fun hc => ⟨fun hpd c => hc.not_due hno hpd, fun c hpd hcr _ _ _ =>
      .inl (hgn c hpd hcr)⟩, fun hc => contract_of_not_due hno hc.any ?_⟩
    rintro - c ⟨hcr, hpr, hz⟩ (hpd | hpd)
    · have hlv : (facts s.table c).exited = false := by
        by_contra het
        exact hc.any hpd c ⟨⟨hcr, hpr, hz⟩, Bool.eq_true_of_not_eq_false het⟩
      exact hnobody hpd c hcr ⟨hpr, hlv⟩
    · exact h.numRef_ne_zero hcr hz (hgn c hpd hcr)
  | stranger c hpd hpr =>
    refine iff_of_true (contract_of_not_due (by simp [ReturnsNone]) (fun han => by omega) ?_)
      ⟨fun han => by omega, fun d hd _ hd' => ?_⟩
    · rintro - d ⟨-, hd', -⟩ (han | hd)
      · omega
      · obtain rfl : c = d := by omega
        exact hpr hd'
    · obtain rfl : c = d := by omega
      exact absurd hd' hpr
  | round k hc hpr href hpd he =>
    rcases Ends.contract_iff he with ⟨status, rfl, hsg, het⟩ | ⟨hwh, hif⟩
    · have hpd := hpd.resolve_left fun ⟨_, hlv⟩ =>
        Bool.false_ne_true (hlv.symm.trans het)
      constructor
      · intro hcn
        have hz := hcn.once k.towait status rfl hc het
        refine ⟨fun han => by omega, fun d hd _ _ _ hne => ?_⟩
        obtain rfl : k.towait = d := by omega
        exact absurd hz hne
      · intro hcd
        have hz : s.returned k.towait = 0 := by
          by_contra hne
          exact (hcd.again k.towait hpd hc hpr het hne).elim href hsg
        refine ⟨fun han => by omega, ?_, by simp⟩
        rintro d _ ⟨rfl, -⟩ - -
        exact hz
    · rw [hif]
      refine ⟨fun hde => ⟨hde, fun d hd _ _ het _ => ?_⟩, fun hcd => hcd.any⟩
      obtain rfl : k.towait = d := by omega
      exact hwh.elim .inr fun hlv => absurd (hlv.symm.trans het) Bool.false_ne_true

/-- In every reachable state, a call and each later round of one end as promised exactly under
these conditions. -/
theorem waitpid_contract (past : ℕ → ℕ) (s : State) (h : Reached past s) :
    (∀ p stale pid flags, Enabled s (.waitpid p stale pid flags) → ∃ o s', comSysSyscallWaitpid s p
      stale pid flags = some (o, s') ∧ (Contract s p pid o ↔ CallCondition s p pid)) ∧
    ∀ p k, s.call p = some k → Enabled s (.resume p) →
      ∃ o s', waitpidProc s p k = some (o, s') ∧ (Contract s p k.pid o ↔ RoundCondition s p k) := by
  have hiv := Reached.invariant h
  constructor
  · intro p stale pid flags he
    obtain ⟨o, s', hcl, -, hen⟩ := hiv.waitpid he.1 he.2 pid flags
    exact ⟨o, s', hcl, Invariant.contract_call hiv hen⟩
  · intro p k hk he
    obtain ⟨o, s', hpc, -, hen⟩ := Invariant.resume hiv hk he.2
    exact ⟨o, s', hpc, Invariant.contract_resume hiv hk hen⟩

theorem reached_exitedChild : ∃ s, Reached (fun _ => 0) s ∧ InUser s 1 ∧ ExitedLeft s 1 2 ∧
    (∃ s', comSysSyscallWaitpid s 1 (fun _ => none) (-1) 0 = some (.error .ECHILD, s')) ∧
    ∃ s', comSysSyscallWaitpid s 1 (fun _ => none) 2 0 = some (.ok 2 (some 0), s') ∧
      InUser (dispatch (fun _ => 0) s' 1) 1 ∧ (dispatch (fun _ => 0) s' 1).returned 2 = 1 ∧
      ∃ s'', comSysSyscallWaitpid (dispatch (fun _ => 0) s' 1) 1 (fun _ => none) 2 0 =
        some (.ok 2 (some 0), s'') := by
  refine ⟨_, ⟨fun _ => none, _, rfl, .step (.step (.step .start
      (e := .fork 1 fun _ => none) ⟨rfl, ⟨by decide, by decide⟩, rfl, _, rfl, rfl⟩ rfl)
      (e := .exit 2 0) ⟨rfl, ⟨by decide, by decide⟩, rfl, _, rfl, rfl⟩ rfl)
      (e := .interrupt 1) ⟨rfl, ⟨by decide, by decide⟩, rfl, _, rfl, rfl⟩ rfl⟩,
    ⟨rfl, ⟨by decide, by decide⟩, rfl, _, rfl, rfl⟩,
    ⟨⟨⟨by decide, by decide⟩, rfl, rfl⟩, rfl⟩, ⟨_, rfl⟩, _, rfl,
    ⟨rfl, ⟨by decide, by decide⟩, rfl, _, rfl, rfl⟩, rfl, _, rfl⟩

theorem waitpid_contract_first : ∃ s o s', Reached (fun _ => 0) s ∧ ExitedLeft s 1 2 ∧
    comSysSyscallWaitpid s 1 (fun _ => none) 2 0 = some (o, s') ∧ Contract s 1 2 o := by
  obtain ⟨s, hs, hus, hlf, -⟩ := reached_exitedChild
  obtain ⟨o, s', hcl, hif⟩ :=
    (waitpid_contract _ s hs).1 1 (fun _ => none) 2 0 ⟨hus, by simp⟩
  refine ⟨s, o, s', hs, hlf, hcl, hif.mpr ⟨by simp, fun c hc _ _ _ hne => ?_⟩⟩
  obtain rfl : 2 = c := by omega
  exact absurd hlf.1.2.2 hne

/-- `waitpid(-1)` says that there is no child while one has exited; and the same child is returned
twice. -/
theorem exited_child_missed :
    (∃ s s', Reached (fun _ => 0) s ∧ Enabled s (.waitpid 1 (fun _ => none) (-1) 0) ∧ ExitedLeft s 1
      2 ∧ comSysSyscallWaitpid s 1 (fun _ => none) (-1) 0 = some (.error .ECHILD, s') ∧ ¬ Contract s
      1 (-1) (.error .ECHILD)) ∧
    ∃ s s', Reached (fun _ => 0) s ∧ Enabled s (.waitpid 1 (fun _ => none) 2 0) ∧
      s.returned 2 = 1 ∧ comSysSyscallWaitpid s 1 (fun _ => none) 2 0 = some (.ok 2 (some 0), s') := by
  obtain ⟨s, hs, hus, hlf, ⟨t, ht⟩, u, hu, hus', hon, v, hv⟩ := reached_exitedChild
  refine ⟨⟨s, t, hs, ⟨hus, by simp⟩, hlf, ht, fun hcn => ?_⟩, _, v, ?_,
    ⟨hus', by simp⟩, hon, hv⟩
  · obtain ⟨c, status, -, ho⟩ := hcn.reaps rfl ⟨2, hlf⟩
    cases ho
  · obtain ⟨memory, table, hii, hru⟩ := hs
    refine ⟨memory, table, hii, .step hru (e := .waitpid 1 (fun _ => none) 2 0)
      ⟨hus, by simp⟩ ?_⟩
    rw [next, hu]
    rfl

end WaitPidContract
