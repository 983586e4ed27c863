import SalernosKernel.Signals

/-! # Signal numbers

What `kill` and `sigaction` accept from a program, and the arrays that are indexed with it:
`proc->sigaction` has `NSIG` entries, and `SignalProperties` ends with `SIGSYS`. -/
namespace SignalNumbers

open BitMask Signals

/-- `IS_VALID_SIGNAL`. -/
def isValidSignal (sig : ℤ) : Prop := 0 < sig ∧ sig < 64

def sigactionAccepts (nsig : ℕ) (sig : ℤ) : Prop := ¬ (sig < 1 ∨ nsig < sig)

def pendingAfter (sigs : List ℤ) : Mask :=
  sigs.foldl (fun m sig => insert m (ofNumber sig.toNat)) 0

inductive Outcome where
  | kill
  | stop
  | ignore
  | handler
  deriving DecidableEq

/-- The branches of `com_ipc_signal_dispatch` for the entry of `proc->sigaction`. -/
def dispatched (past : ℕ → ℕ) (action : Option Action) (sig : Signal) : Outcome :=
  let props := signalProperties past sig
  if action.getD .dfl = .dfl ∧ props &&& SA_KILL ≠ 0 then .kill
  else if action.getD .dfl = .dfl ∧ props &&& SA_STOP ≠ 0 then .stop
  else if action.getD .dfl = .dfl ∧ props &&& SA_IGNORE ≠ 0 then .ignore
  else if action = none ∨ action = some .ign then .ignore
  else .handler

/-- Both arrays have the entry, and the default disposition means something. -/
def Safe (nsig : ℕ) (sig : Signal) : Prop :=
  sig.val + 1 < nsig ∧ sig.val + 1 < signalTable.length ∧
    ∀ past action, action.getD .dfl = .dfl → dispatched past action sig ≠ .handler

variable {nsig : ℕ} {sig : Signal} {sigs : List ℤ}

theorem has_foldl {m : Mask} : Has (sigs.foldl (fun m sig => insert m (ofNumber sig.toNat)) m) sig →
      Has m sig ∨ ∃ n ∈ sigs, sig = ofNumber n.toNat := by
  induction sigs generalizing m with
  | nil => exact .inl
  | cons n sigs ih =>
    intro h
    rcases ih h with h | ⟨n', hn', he⟩
    · rcases has_insert.mp h with he | h
      · exact .inr ⟨n, List.mem_cons_self, he⟩
      · exact .inl h
    · exact .inr ⟨n', List.mem_cons_of_mem _ hn', he⟩

theorem mem_of_pending (hvl : ∀ n ∈ sigs, isValidSignal n) (h : Has (pendingAfter sigs) sig) :
    (sig.val + 1 : ℤ) ∈ sigs := by
  obtain h | ⟨n, hn, rfl⟩ := has_foldl h
  · exact absurd h has_zero
  · obtain ⟨hps, hlt⟩ := hvl n hn
    have : ((ofNumber n.toNat).val + 1 : ℤ) = n := by
      rw [ofNumber, Fin.ofNat]
      dsimp only
      omega
    rwa [this]

theorem signalTable_ne_zero : ∀ n < 32, n ≠ 0 →
    ((signalTable[n]?.getD 0 &&& SA_KILL ≠ 0 ∨ signalTable[n]?.getD 0 &&& SA_STOP ≠ 0 ∨
      signalTable[n]?.getD 0 &&& SA_IGNORE ≠ 0) ↔ n ≠ 16 ∧ n ≠ 30) := by
  decide

theorem safe_iff : Safe nsig sig ↔
      sig.val + 1 < nsig ∧ sig.val + 1 < 32 ∧ sig.val + 1 ≠ 16 ∧ sig.val + 1 ≠ 30 := by
  refine and_congr_right fun _ => and_congr_right fun (hlt : sig.val + 1 < 32) => ?_
  have hpr (past : ℕ → ℕ) :
      signalProperties past sig = signalTable[sig.val + 1]?.getD 0 := by
    have hsm : signalTable[sig.val + 1]? = some (signalTable.get ⟨sig.val + 1, hlt⟩) :=
      List.getElem?_eq_getElem hlt
    rw [signalProperties, hsm]
    rfl
  rw [← signalTable_ne_zero _ hlt (Nat.succ_ne_zero _)]
  constructor
  · intro h
    by_contra hnt
    simp only [not_or, not_not] at hnt
    have := h 0 (some .dfl) rfl
    simp [dispatched, hpr, hnt.1, hnt.2.1, hnt.2.2] at this
  · intro h past action haction
    unfold dispatched
    simp only [haction, hpr, true_and]
    split_ifs with hkl hstop hignore
    all_goals simp_all

/-- A signal that is dispatched was sent; it is safe exactly below `NSIG` and 32, with two
exceptions. `NSIG` itself is accepted by `sigaction`. -/
theorem signal_numbers_iff (nsig : ℕ) :
    (∀ (sigs : List ℤ) (t : Thread) (sig : Signal), (∀ n ∈ sigs, isValidSignal n) → t.pending =
      pendingAfter sigs → comIpcSignalCheckNolock t = some sig → (sig.val + 1 : ℤ) ∈ sigs ∧ (Safe
      nsig sig ↔ sig.val + 1 < nsig ∧ sig.val + 1 < 32 ∧ sig.val + 1 ≠ 16 ∧ sig.val + 1 ≠ 30)) ∧
      ∀ sig, sigactionAccepts nsig sig → (sig.toNat < nsig ↔ sig ≠ nsig) := by
  refine ⟨fun sigs t sig hvl ht hcheck => ⟨mem_of_pending hvl ?_, safe_iff⟩, fun sig h => ?_⟩
  · rw [← ht]
    exact (check_eq_some.mp hcheck).1.1
  · unfold sigactionAccepts at h
    omega

/-- Signal 40 is accepted and has no properties, 16 with `SIG_DFL` enters a handler at it, and
`sigaction` accepts `NSIG`. -/
theorem signal_numbers_outside : isValidSignal 40 ∧ ¬ (40 < signalTable.length) ∧ isValidSignal 16 ∧
      dispatched (fun _ => 0) (some .dfl) (ofNumber 16) = .handler ∧
      sigactionAccepts 64 64 ∧ ¬ (64 < 64) :=
  ⟨by unfold isValidSignal; decide, by decide, by unfold isValidSignal; decide, by decide,
    by unfold sigactionAccepts; decide, by decide⟩

end SignalNumbers
