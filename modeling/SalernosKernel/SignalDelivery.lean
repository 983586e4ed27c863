import SalernosKernel.Runs
import SalernosKernel.Signals

/-! # Delivery of a signal sent to a process

How often a signal that was sent once is taken by threads that change their masks and dispatch. -/
namespace SignalDelivery

open BitMask Signals

inductive Event where
  | setMask (i : ℕ) (how : ℤ) (set : Option Mask)
  | dispatch (i : ℕ)
  deriving DecidableEq

def Event.thread : Event → ℕ
  | .setMask i .. | .dispatch i => i

structure State where
  proc : Proc
  taken : ℕ

def Outside (p : Proc) (i : ℕ) : Prop := ∃ t, p.threads[i]? = some t ∧ t.pc = .outside

instance (p : Proc) (i : ℕ) : Decidable (Outside p i) :=
  decidable_of_iff ((p.threads[i]?).map Thread.pc = some .outside) (by simp [Outside])

def next (past : ℕ → ℕ) (sig : Signal) (s : State) : Event → State
  | .setMask i how set => { s with proc := comIpcSignalSetMask s.proc i how set }
  | .dispatch i =>
    let r := comIpcSignalDispatch past s.proc i
    ⟨r.2, if r.1 = some sig then s.taken + 1 else s.taken⟩

def Reached (past : ℕ → ℕ) (sig : Signal) : State → State → Prop :=
  Runs.Reaches (fun s e => some (next past sig s e)) fun s e => Outside s.proc e.thread

/-- After one `send_to_proc` the signal is taken at most once, and it has been taken once when a
thread that does not mask it has dispatched with no lower signal deliverable. -/
def HandledOnce (past : ℕ → ℕ) (p : Proc) (sig : Signal) : Prop :=
  ∀ s, Reached past sig ⟨comIpcSignalSendToProc p sig, 0⟩ s → s.taken ≤ 1 ∧
    ∀ (i : ℕ) (t : Thread), s.proc.threads[i]? = some t → t.pc = .outside → ¬ Has t.masked sig →
      (∀ low < sig, ¬ (Has t.pending low ∧ ¬ Has t.masked low)) →
      (next past sig s (.dispatch i)).taken = 1

def SoleReceiver (p : Proc) (sig : Signal) : Prop :=
  ∀ i, Outside p i → (∀ j, Outside p j → j = i) ∧ NoneBefore p.stopSignal sig p.threads i

def PendingNowhere (p : Proc) (sig : Signal) : Prop :=
  ¬ Has p.pending sig ∧ ∀ t ∈ p.threads, ¬ Has t.pending sig

variable {past : ℕ → ℕ} {p : Proc} {t : Thread} {sig : Signal} {s : State} {i j : ℕ}

theorem taken_dispatch (past : ℕ → ℕ) (sig : Signal) (ht : s.proc.threads[i]? = some t) :
    (next past sig s (.dispatch i)).taken =
      if comIpcSignalCheckNolock t = some sig then s.taken + 1 else s.taken := by
  cases hch : comIpcSignalCheckNolock t with
  | none => simp [next, dispatch_none ht hch]
  | some taken => simp [next, dispatch_some ht hch]

theorem send_eq (hsig : sig.val + 1 < 64) (hlv : p.exited = false) :
    (comIpcSignalSendToProc p sig).threads = (sendLoop p.stopSignal sig p.threads).1 := by
  simp [comIpcSignalSendToProc, sendToProc, hsig, hlv]

theorem outside_send (hsig : sig.val + 1 < 64) (hlv : p.exited = false) :
    Outside (comIpcSignalSendToProc p sig) i ↔ Outside p i := by
  unfold Outside
  rw [send_eq hsig hlv]
  by_cases h : NoneBefore p.stopSignal sig p.threads i
  · rw [sendLoop_of_noneBefore h]
    simp
  · rw [sendLoop_of_not_noneBefore h]

theorem pending_send (hsig : sig.val + 1 < 64) (hlv : p.exited = false)
    (hnew : PendingNowhere p sig)
    (ht : (comIpcSignalSendToProc p sig).threads[i]? = some t) :
    Has t.pending sig ↔ NoneBefore p.stopSignal sig p.threads i := by
  rw [send_eq hsig hlv] at ht
  by_cases h : NoneBefore p.stopSignal sig p.threads i
  · rw [sendLoop_of_noneBefore h] at ht
    obtain ⟨u, -, rfl⟩ := Option.map_eq_some_iff.mp ht
    simp [h]
  · rw [sendLoop_of_not_noneBefore h] at ht
    exact iff_of_false (hnew.2 t (List.mem_of_getElem? ht)) h

structure Invariant (sig : Signal) (s : State) : Prop where
  sole : ∀ i j, Outside s.proc i → Outside s.proc j → j = i
  counted : ∀ (i : ℕ) (t : Thread), s.proc.threads[i]? = some t → t.pc = .outside →
    s.taken = 0 ∧ Has t.pending sig ∨ s.taken = 1 ∧ ¬ Has t.pending sig
  taken_le : s.taken ≤ 1

theorem invariant_send (hsig : sig.val + 1 < 64) (hlv : p.exited = false)
    (hnew : PendingNowhere p sig) (h : SoleReceiver p sig) :
    Invariant sig ⟨comIpcSignalSendToProc p sig, 0⟩ := by
  refine ⟨fun i j hi hj => ?_, fun i t ht hpc => .inl ⟨rfl, ?_⟩, Nat.zero_le 1⟩
  · rw [outside_send hsig hlv] at hi hj
    exact (h i hi).1 j hj
  · rw [pending_send hsig hlv hnew ht]
    exact (h i ((outside_send hsig hlv).mp ⟨t, ht, hpc⟩)).2

theorem Outside.of_map {f : Thread → Thread} {q : Proc} (hq : q.threads[j]? = (p.threads[j]?).map f)
    (hf : ∀ t, (f t).pc = .outside → t.pc = .outside) (h : Outside q j) : Outside p j := by
  obtain ⟨t', ht', hpc'⟩ := h
  rw [hq] at ht'
  obtain ⟨t, ht, rfl⟩ := Option.map_eq_some_iff.mp ht'
  exact ⟨t, ht, hf t hpc'⟩

theorem Invariant.setMask (h : Invariant sig s) (i : ℕ) (how : ℤ) (set : Option Mask) :
    Invariant sig (next past sig s (.setMask i how set)) := by
  have hmp := fun j => getElem?_modifyThread (p := s.proc) (i := i) (j := j) fun t =>
    { t with masked := (comIpcSignalSetMaskNolock t.masked how set).getD t.masked }
  have hot : ∀ j, Outside (comIpcSignalSetMask s.proc i how set) j → Outside s.proc j :=
    fun j => Outside.of_map (hmp j) fun t hpc => by by_cases hj : j = i <;> simpa [hj] using hpc
  refine ⟨fun i j hi hj => h.sole i j (hot i hi) (hot j hj), ?_, h.taken_le⟩
  intro j t' ht' hpc'
  obtain ⟨t, ht, rfl⟩ := Option.map_eq_some_iff.mp ((hmp j).symm.trans ht')
  have hct := h.counted j t ht
  by_cases hj : j = i
  · simp only [hj, if_true] at hpc' ⊢
    exact hct hpc'
  · simp only [hj, if_false] at hpc' ⊢
    exact hct hpc'

theorem Invariant.dispatch (h : Invariant sig s) (hi : Outside s.proc i) :
    Invariant sig (next past sig s (.dispatch i)) := by
  obtain ⟨t, ht, hpc⟩ := hi
  cases hch : comIpcSignalCheckNolock t with
  | none =>
    simp only [next, dispatch_none ht hch]
    exact h
  | some taken =>
    have hef := dispatch_effect past ht hch
    have hot : ∀ j, Outside (comIpcSignalDispatch past s.proc i).2 j → Outside s.proc j := by
      intro j
      obtain ⟨f, hf, heff⟩ := hef j
      exact Outside.of_map hf fun u => (heff u).1.outside
    have hpn := (check_eq_some.mp hch).1.1
    have htk := taken_dispatch past sig ht
    rw [hch] at htk
    refine ⟨fun i j hi hj => h.sole i j (hot i hi) (hot j hj), ?_, ?_⟩
    · intro j t' ht' hpc'
      obtain rfl := h.sole i j ⟨t, ht, hpc⟩ (hot j ⟨t', ht', hpc'⟩)
      obtain ⟨f, hf, heff⟩ := hef j
      obtain rfl : f t = t' := by
        rw [ht] at hf
        exact Option.some.inj (hf.symm.trans ht')
      rw [htk]
      have hct := h.counted j t ht hpc
      by_cases hsm : taken = sig
      · subst hsm
        have hz : s.taken = 0 := (hct.resolve_right fun hr => hr.2 hpn).1
        exact .inr ⟨by simp [hz], (heff t).2 rfl⟩
      · have hif := (heff t).1.pending_of_ne sig (Ne.symm hsm)
        simpa [hsm, hif] using hct
    · rw [htk]
      have hct := h.counted i t ht hpc
      by_cases hsm : taken = sig
      · subst hsm
        have hz : s.taken = 0 := (hct.resolve_right fun hr => hr.2 hpn).1
        simp [hz]
      · simpa [hsm] using h.taken_le

theorem SoleReceiver.handledOnce (hsig : sig.val + 1 < 64) (hlv : p.exited = false)
    (hnew : PendingNowhere p sig) (h : SoleReceiver p sig) : HandledOnce past p sig := by
  intro s hs
  have hiv : Invariant sig s := by
    apply hs.invariant (Invariant sig) (invariant_send hsig hlv hnew h)
    rintro s e s' hiv henabled hnx
    cases hnx
    cases e with
    | setMask i how set => exact hiv.setMask i how set
    | dispatch i => exact hiv.dispatch henabled
  refine ⟨hiv.taken_le, fun i t ht hpc hms hlw => ?_⟩
  rw [taken_dispatch past sig ht]
  rcases hiv.counted i t ht hpc with ⟨hz, hpn⟩ | ⟨hon, hpn⟩
  · rw [if_pos (check_eq_some.mpr ⟨⟨hpn, hms⟩, hlw⟩), hz]
  · rw [if_neg fun hch => hpn (check_eq_some.mp hch).1.1, hon]

def allBut (sig : Signal) : Mask := ~~~(insert 0 sig)

theorem has_allBut {low : Signal} : Has (allBut sig) low ↔ low ≠ sig := by
  simp [allBut]

theorem setMask_allBut (past : ℕ → ℕ) (sig : Signal) (ht : s.proc.threads[i]? = some t) :
    (next past sig s (.setMask i SIG_SETMASK (some (allBut sig)))).proc.threads[i]? =
      some { t with masked := allBut sig } := by
  simp [next, comIpcSignalSetMask, getElem?_modifyThread, ht, comIpcSignalSetMaskNolock,
    SIG_SETMASK, SIG_BLOCK]

theorem setMask_other (hj : j ≠ i) (how : ℤ) (set : Option Mask) :
    (next past sig s (.setMask i how set)).proc.threads[j]? = s.proc.threads[j]? := by
  simp [next, comIpcSignalSetMask, getElem?_modifyThread, hj]

theorem check_allBut (t : Thread) (sig : Signal) :
    comIpcSignalCheckNolock { t with masked := allBut sig } =
      if Has t.pending sig then some sig else none := by
  split
  · rename_i hpn
    refine check_eq_some.mpr ⟨⟨hpn, by simp [has_allBut]⟩, fun low hlw hhas => ?_⟩
    exact hhas.2 (has_allBut.mpr hlw.ne)
  · rename_i hpn
    refine check_eq_none.mpr fun low hhas => hpn ?_
    obtain rfl : low = sig := not_not.mp fun hne => hhas.2 (has_allBut.mpr hne)
    exact hhas.1

theorem exists_taken (past : ℕ → ℕ) (ht : s.proc.threads[i]? = some t) (hpc : t.pc = .outside)
    (hpn : Has t.pending sig) :
    ∃ s', Reached past sig s s' ∧ s'.taken = s.taken + 1 ∧
      ∀ (j : ℕ) (u : Thread), j ≠ i → s.proc.threads[j]? = some u →
        ∃ u' : Thread, s'.proc.threads[j]? = some u' ∧ u'.pc = u.pc ∧
          (Has u.pending sig → Has u'.pending sig) := by
  let masked := next past sig s (.setMask i SIG_SETMASK (some (allBut sig)))
  have hst : masked.proc.threads[i]? = some { t with masked := allBut sig } :=
    setMask_allBut past sig ht
  have hch := (check_allBut t sig).trans (if_pos hpn)
  have hre : Reached past sig s masked :=
    .step .start (e := .setMask i SIG_SETMASK (some (allBut sig))) ⟨t, ht, hpc⟩ rfl
  refine ⟨next past sig masked (.dispatch i),
    .step hre (e := .dispatch i) ⟨_, hst, hpc⟩ rfl, ?_, fun j u hj hu => ?_⟩
  · rw [taken_dispatch past sig hst, if_pos hch]
    rfl
  · obtain ⟨f, hf, hef⟩ := dispatch_effect past hst hch j
    have hu' : masked.proc.threads[j]? = some u := (setMask_other hj _ _).trans hu
    have he := (hef u).1
    rw [hu'] at hf
    exact ⟨f u, hf, he.pc_kept hj, he.pending_kept hj⟩

theorem HandledOnce.pending (h : HandledOnce past p sig)
    (ht : (comIpcSignalSendToProc p sig).threads[i]? = some t) (hpc : t.pc = .outside) :
    Has t.pending sig := by
  by_contra hpn
  let sent : State := ⟨comIpcSignalSendToProc p sig, 0⟩
  let masked := next past sig sent (.setMask i SIG_SETMASK (some (allBut sig)))
  have hst : masked.proc.threads[i]? = some { t with masked := allBut sig } :=
    setMask_allBut past sig (s := sent) ht
  have hch := (check_allBut t sig).trans (if_neg hpn)
  have hre : Reached past sig sent masked :=
    .step .start (e := .setMask i SIG_SETMASK (some (allBut sig))) ⟨t, ht, hpc⟩ rfl
  have hon := (h masked hre).2 i _ hst hpc (by simp [has_allBut]) fun low hlw hhas =>
    hhas.2 (has_allBut.mpr hlw.ne)
  rw [taken_dispatch past sig hst, hch, if_neg (by simp)] at hon
  exact absurd hon Nat.zero_ne_one

theorem HandledOnce.soleReceiver (hsig : sig.val + 1 < 64) (hlv : p.exited = false)
    (hnew : PendingNowhere p sig) (h : HandledOnce past p sig) : SoleReceiver p sig := by
  intro i hi
  obtain ⟨t, ht, hpc⟩ := (outside_send hsig hlv).mpr hi
  have hpn := h.pending ht hpc
  refine ⟨fun j hj => ?_, (pending_send hsig hlv hnew ht).mp hpn⟩
  by_contra hne
  -- Both take the signal, one after the other.
  obtain ⟨u, hu, hup⟩ := (outside_send hsig hlv).mpr hj
  obtain ⟨s₁, hs₁, hct₁, hrs⟩ := exists_taken past (s := ⟨_, 0⟩) ht hpc hpn
  obtain ⟨u', hu', hpc', hkp⟩ := hrs j u hne hu
  obtain ⟨s₂, hs₂, hct₂, -⟩ :=
    exists_taken past hu' (hpc'.trans hup) (hkp (h.pending hu hup))
  have hle := (h s₂ (hs₁.trans hs₂)).1
  omega

/-- A signal is handled once exactly if it has a sole receiver. -/
theorem handledOnce_iff (past : ℕ → ℕ) (p : Proc) (sig : Signal) (hsig : sig.val + 1 < 64)
    (hlive : p.exited = false) (hnew : PendingNowhere p sig) :
    HandledOnce past p sig ↔ SoleReceiver p sig :=
  ⟨HandledOnce.soleReceiver hsig hlive hnew, SoleReceiver.handledOnce hsig hlive hnew⟩

def SIGUSR1 : Signal := ofNumber 10

def masking (masks : List Mask) : Proc where
  threads := masks.map fun m => ⟨0, m, .running, .outside⟩
  pending := 0
  sigaction _ := none
  stopSignal := none
  exited := false

theorem handledOnce_one_thread : HandledOnce (fun _ => 0) (masking [0]) SIGUSR1 := by
  refine (handledOnce_iff _ (masking [0]) SIGUSR1 (by decide) rfl ⟨by decide, by decide⟩).mpr ?_
  rintro i ⟨t, ht, -⟩
  obtain rfl : i = 0 := by
    by_contra hne
    obtain ⟨k, rfl⟩ := Nat.exists_eq_succ_of_ne_zero hne
    simp [masking] at ht
  refine ⟨?_, fun j hj => absurd hj (Nat.not_lt_zero j)⟩
  rintro j ⟨u, hu, -⟩
  by_contra hne
  obtain ⟨k, rfl⟩ := Nat.exists_eq_succ_of_ne_zero hne
  simp [masking] at hu

/-- Two threads mask a signal when it is sent; each takes it once it no longer does. -/
theorem taken_by_two_threads : ∃ s, Reached (fun _ => 0) SIGUSR1
      ⟨comIpcSignalSendToProc (masking [insert 0 SIGUSR1, insert 0 SIGUSR1]) SIGUSR1, 0⟩ s ∧
      s.taken = 2 := by
  have hrn : ∃ s, Runs.run (fun s e => some (next (fun _ => 0) SIGUSR1 s e))
      (fun s e => Outside s.proc e.thread)
      ⟨comIpcSignalSendToProc (masking [insert 0 SIGUSR1, insert 0 SIGUSR1]) SIGUSR1, 0⟩
      [.setMask 0 SIG_SETMASK (some 0), .dispatch 0, .setMask 1 SIG_SETMASK (some 0),
        .dispatch 1] = some s ∧ s.taken = 2 := ⟨_, rfl, rfl⟩
  obtain ⟨s, hrn, htk⟩ := hrn
  exact ⟨s, Runs.run_reaches hrn, htk⟩

end SignalDelivery
