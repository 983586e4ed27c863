import SalernosKernel.SignalSteps

/-! # Delivery of `SIGKILL`

Nothing keeps `SIGKILL` out of a mask, and a process that is stopped accepts only `SIGCONT`. -/
namespace SignalKill

open BitMask Signals SignalSteps Option

def Runnable (t : Thread) : Prop := t.activity = .ready ∨ t.activity = .running
  deriving Decidable

def KillDeliverable (p : Proc) : Prop :=
  ∃ t ∈ p.threads, Runnable t ∧ Has t.pending SIGKILL ∧ ¬ Has t.masked SIGKILL
  deriving Decidable

def CanTake (p : Proc) : Prop :=
  ∃ t ∈ p.threads, ¬ Has t.masked SIGKILL ∧ (p.stopSignal = none ∨ Runnable t)

def Reached (past : ℕ → ℕ) (ok : Proc → Event → Prop) : Proc → Proc → Prop :=
  Runs.Reaches (next past) fun p e => Enabled p e ∧ ok p e

/-- Steps that do not put `SIGKILL` in a mask, nor catch it with a handler that would. -/
def LeavesUnmasked : Event → Prop
  | .sigprocmask _ how set => how = SIG_UNBLOCK ∨ ∀ m, set = some m → ¬ Has m SIGKILL
  | .sigreturn _ mask => ¬ Has mask SIGKILL
  | .sigaction sig act =>
    ¬ Has act.mask SIGKILL ∧ (sig = SIGKILL → act.action = .handle → act.nodefer = true)
  | _ => True

structure Unmasked (p : Proc) : Prop where
  threads : ∀ t ∈ p.threads, ¬ Has t.masked SIGKILL
  handlers : ∀ sig sa, p.sigaction sig = some sa →
    ¬ Has sa.mask SIGKILL ∧ (sig = SIGKILL → sa.action = .handle → sa.nodefer = true)

def HasThread (p : Proc) : Prop := (p.threads[0]?).isSome ∨ p.exited = true

variable {past : ℕ → ℕ} {p p₀ : Proc} {t : Thread} {ts : List Thread} {stop : Option Signal}
  {sig : Signal} {e : Event} {i : ℕ}

theorem exists_accepting (h : ∃ t ∈ ts, Accepts stop sig t) :
    ∃ t ∈ (sendLoop stop sig ts).1, Runnable t ∧ Has t.pending sig ∧ ¬ Has t.masked sig := by
  induction ts with
  | nil => simp at h
  | cons t ts ih =>
    by_cases ht : Accepts stop sig t
    · refine ⟨sendToThread stop sig t, by simp [sendLoop, ht], activity_of_accepts ht, ?_⟩
      simpa using ht.1
    · obtain ⟨u, hu, hac⟩ := h
      have hrs : u ∈ ts := (List.mem_cons.mp hu).resolve_left fun heq => ht (heq ▸ hac)
      obtain ⟨v, hv, hgd⟩ := ih ⟨u, hrs, hac⟩
      exact ⟨v, by simp [sendLoop, ht, hv], hgd⟩

theorem mem_sendLoop (ht : t ∈ (sendLoop stop sig ts).1) :
    ∃ u ∈ ts, t = u ∨ t = sendToThread stop sig u := by
  induction ts with
  | nil => simp [sendLoop] at ht
  | cons u ts ih =>
    by_cases hu : Accepts stop sig u
    · simp only [sendLoop, hu, if_true, List.mem_cons] at ht
      rcases ht with rfl | ht
      · exact ⟨u, List.mem_cons_self, .inr rfl⟩
      · exact ⟨t, List.mem_cons_of_mem _ ht, .inl rfl⟩
    · simp only [sendLoop, hu, if_false, List.mem_cons] at ht
      rcases ht with rfl | ht
      · exact ⟨u, List.mem_cons_self, .inr rfl⟩
      · obtain ⟨v, hv, hor⟩ := ih ht
        exact ⟨v, List.mem_cons_of_mem _ hv, hor⟩

theorem send_threads (hlv : p.exited = false) :
    (comIpcSignalSendToProc p SIGKILL).threads = (sendLoop p.stopSignal SIGKILL p.threads).1 := by
  have hvl : SIGKILL.val + 1 < 64 := by decide
  simp [comIpcSignalSendToProc, sendToProc, hvl, hlv]

theorem killDeliverable_iff (hlv : p.exited = false) :
    KillDeliverable (comIpcSignalSendToProc p SIGKILL) ↔ CanTake p := by
  unfold KillDeliverable
  rw [send_threads hlv]
  constructor
  · rintro ⟨t, ht, hrn, -, hms⟩
    obtain ⟨u, hu, hor⟩ := mem_sendLoop ht
    have hum : ¬ Has u.masked SIGKILL := by
      rcases hor with rfl | rfl
      · exact hms
      · simpa using hms
    refine ⟨u, hu, hum, ?_⟩
    rcases hor with rfl | rfl
    · exact .inr hrn
    · by_cases hst : p.stopSignal = none
      · exact .inl hst
      · have hnot : ¬ Accepts p.stopSignal SIGKILL u := by
          rintro ⟨-, hno | hcn⟩
          · exact hst hno
          · exact absurd hcn (by decide)
        rw [Runnable, activity_of_not_accepts hnot] at hrn
        exact .inr hrn
  · rintro ⟨t, ht, hms, hst | hrn⟩
    · exact exists_accepting ⟨t, ht, hms, .inl hst⟩
    · by_cases hst : p.stopSignal = none
      · exact exists_accepting ⟨t, ht, hms, .inl hst⟩
      · have hno : ∀ u : Thread, ¬ Accepts p.stopSignal SIGKILL u := by
          rintro u ⟨-, hno | hcn⟩
          · exact hst hno
          · exact absurd hcn (by decide)
        obtain ⟨i, hi⟩ := List.mem_iff_getElem?.mp ht
        have hsn : (sendLoop p.stopSignal SIGKILL p.threads).1[i]? =
            (p.threads[i]?).map (sendToThread p.stopSignal SIGKILL) :=
          sendLoop_of_noneBefore fun _ _ u _ => hno u
        rw [hi] at hsn
        refine ⟨sendToThread p.stopSignal SIGKILL t, List.mem_of_getElem? hsn, ?_, by simp,
          by simpa using hms⟩
        rwa [Runnable, activity_of_not_accepts (hno t)]

section

variable (h : Unmasked p)

include h

theorem Unmasked.modifyThread {f : Thread → Thread}
    (hf : ∀ t ∈ p.threads, ¬ Has (f t).masked SIGKILL) : Unmasked (p.modifyThread i f) := by
  refine ⟨fun t ht => ?_, h.handlers⟩
  obtain ⟨j, hj⟩ := List.mem_iff_getElem?.mp ht
  rw [getElem?_modifyThread] at hj
  obtain ⟨u, hu, rfl⟩ := map_eq_some_iff.mp hj
  have hme := List.mem_of_getElem? hu
  by_cases hji : j = i
  · simpa [hji] using hf u hme
  · simpa [hji] using h.threads u hme

theorem Unmasked.modifyThread_of_eq {f : Thread → Thread}
    (hf : ∀ t, (f t).masked = t.masked) : Unmasked (p.modifyThread i f) :=
  h.modifyThread fun t ht => by rw [hf t]; exact h.threads t ht

theorem Unmasked.stopNolock (sig : Signal) :
    Unmasked (comSysProcStopNolock p sig) := by
  unfold comSysProcStopNolock
  split
  · exact h
  · refine ⟨fun t ht => ?_, h.handlers⟩
    obtain ⟨u, hu, rfl⟩ := List.mem_map.mp ht
    simpa using h.threads u hu

theorem Unmasked.enterHandler {sa : Sigaction} (hsa : p.sigaction sig = some sa)
    (hkl : sig = SIGKILL → sa.nodefer = true) : Unmasked (enterHandler p i sig sa) := by
  have hms := (h.handlers sig sa hsa).1
  have hmd : Unmasked (p.modifyThread i fun t =>
      { t with masked := if sa.nodefer then t.masked ||| sa.mask
                         else insert (t.masked ||| sa.mask) sig }) := by
    apply h.modifyThread
    intro t ht
    have hth := h.threads t ht
    cases hdf : sa.nodefer with
    | true => simp [hth, hms]
    | false =>
      have hne : SIGKILL ≠ sig := fun heq => by simp [hkl heq.symm] at hdf
      simp [hth, hms, hne]
  unfold Signals.enterHandler
  dsimp only
  split
  · refine ⟨hmd.threads, fun s sa' hsa' => ?_⟩
    by_cases hs : s = sig
    · subst hs
      obtain rfl : { sa with action := .dfl } = sa' := by simpa using hsa'
      exact ⟨hms, fun _ h => by simp at h⟩
    · have hold : p.sigaction s = some sa' := by simpa [hs, Proc.modifyThread] using hsa'
      exact h.handlers s sa' hold
  · exact hmd

theorem Unmasked.act (past : ℕ → ℕ) (i : ℕ) (sig : Signal) :
    Unmasked (act past p i sig) := by
  unfold Signals.act
  dsimp only
  split
  · exact Unmasked.modifyThread_of_eq (p := { p with stopSignal := some sig })
      ⟨h.threads, h.handlers⟩ fun _ => rfl
  · rename_i hnotkill
    split
    · exact (h.stopNolock sig).modifyThread_of_eq fun _ => rfl
    · split
      · exact h
      · split
        · exact h
        · rename_i sa hsa
          split
          · exact h
          · rename_i hign
            refine h.enterHandler hsa fun heq => ?_
            -- The default action of `SIGKILL` would have been taken.
            subst heq
            have hnt : ¬ sa.action = .dfl := by
              intro hdl
              have hpr : signalProperties past SIGKILL = SA_KILL := rfl
              refine hnotkill ⟨fun sa' hsa' => ?_, by rw [hpr]; decide⟩
              obtain rfl := some.inj (hsa.symm.trans hsa')
              exact hdl
            refine (h.handlers SIGKILL sa hsa).2 rfl ?_
            cases hat : sa.action with
            | dfl => exact absurd hat hnt
            | ign => exact absurd hat hign
            | handle => rfl

theorem Unmasked.send (sig : Signal) :
    Unmasked (comIpcSignalSendToProc p sig) := by
  unfold comIpcSignalSendToProc sendToProc
  split
  · split
    · exact h
    · refine ⟨fun t ht => ?_, h.handlers⟩
      obtain ⟨u, hu, rfl | rfl⟩ := mem_sendLoop ht
      · exact h.threads t hu
      · simpa using h.threads u hu
  · exact h

theorem Unmasked.dispatch (past : ℕ → ℕ) (i : ℕ) :
    Unmasked (comIpcSignalDispatch past p i).2 := by
  unfold comIpcSignalDispatch
  split
  · exact h
  · refine Unmasked.act ?_ past i _
    exact h.modifyThread_of_eq fun _ => rfl

theorem Unmasked.resume {p' : Proc} (hnx : SignalSteps.resume p i = some p') :
    Unmasked p' := by
  unfold SignalSteps.resume at hnx
  split at hnx
  · cases hnx
    exact h
  · split at hnx
    · have hmd : Unmasked (p.modifyThread i fun t =>
          { t with pending := erase t.pending SIGCONT, pc := .outside }) :=
        h.modifyThread_of_eq fun _ => rfl
      dsimp only at hnx
      split at hnx
      · cases hnx
        exact hmd
      · cases hnx
        refine ⟨fun t ht => ?_, hmd.handlers⟩
        obtain ⟨u, hu, rfl⟩ := List.mem_map.mp ht
        have hms : (leaveStop u).masked = u.masked := by
          unfold leaveStop
          split <;> rfl
        rw [hms]
        exact hmd.threads u hu
    · cases hnx

end

theorem not_has_setMask {mask : Mask} {how : ℤ} {set : Option Mask} (hms : ¬ Has mask SIGKILL)
    (hse : how = SIG_UNBLOCK ∨ ∀ m, set = some m → ¬ Has m SIGKILL) :
    ¬ Has ((comIpcSignalSetMaskNolock mask how set).getD mask) SIGKILL := by
  cases set with
  | none => exact hms
  | some m =>
    rcases hse with rfl | hm
    · simp [comIpcSignalSetMaskNolock, SIG_UNBLOCK, SIG_BLOCK, SIG_SETMASK, hms]
    · have hm := hm m rfl
      unfold comIpcSignalSetMaskNolock
      dsimp only
      split
      · simp [hms, hm]
      · split
        · exact hm
        · split
          · simp [hms]
          · exact hms

theorem Unmasked.next {p' : Proc} (h : Unmasked p) (he : LeavesUnmasked e)
    (hnx : next past p e = some p') : Unmasked p' := by
  cases e with
  | resume i => exact h.resume hnx
  | sigprocmask i how set =>
    cases hnx
    exact h.modifyThread fun t ht => not_has_setMask (h.threads t ht) he
  | sigaction sig act =>
    cases hnx
    refine ⟨h.threads, fun s sa hsa => ?_⟩
    by_cases hs : s = sig
    · subst hs
      obtain rfl : act = sa := by simpa using hsa
      exact he
    · exact h.handlers s sa (by simpa [hs] using hsa)
  | sigreturn i mask =>
    cases hnx
    exact h.modifyThread fun _ _ => he
  | send sig =>
    cases hnx
    exact h.send sig
  | sendToThread i sig =>
    cases hnx
    exact h.modifyThread_of_eq fun _ => sendToThread_masked
  | dispatch i =>
    cases hnx
    exact h.dispatch past i
  | terminate i =>
    cases hnx
    exact ⟨fun t ht => by simp at ht, h.handlers⟩
  | join i | schedule i | preempt i | sleep i | wakeUp i =>
    cases hnx
    exact h.modifyThread_of_eq fun _ => rfl

theorem isSome_modifyThread (f : Thread → Thread) :
    ((p.modifyThread i f).threads[0]?).isSome = (p.threads[0]?).isSome := by
  rw [getElem?_modifyThread, isSome_map]

theorem isSome_sendLoop (stop : Option Signal) (sig : Signal) (ts : List Thread) :
    ((sendLoop stop sig ts).1[0]?).isSome = (ts[0]?).isSome := by
  rw [sendLoop_of_noneBefore fun j hj => absurd hj (Nat.not_lt_zero j), isSome_map]

theorem isSome_dispatch (past : ℕ → ℕ) (p : Proc) (i : ℕ) :
    ((comIpcSignalDispatch past p i).2.threads[0]?).isSome = (p.threads[0]?).isSome := by
  unfold comIpcSignalDispatch
  split
  · rfl
  · rename_i sig _
    obtain ⟨f, hf, -⟩ := act_effect past
      (p.modifyThread i fun t => { t with pending := erase t.pending sig }) i sig 0
    rw [hf, isSome_map, isSome_modifyThread]

theorem isSome_resume {p' : Proc} (hnx : resume p i = some p') :
    (p'.threads[0]?).isSome = (p.threads[0]?).isSome := by
  unfold resume at hnx
  split at hnx
  · cases hnx
    rfl
  · split at hnx
    · dsimp only at hnx
      split at hnx
      · cases hnx
        exact isSome_modifyThread _
      · cases hnx
        rw [List.getElem?_map, isSome_map]
        exact isSome_modifyThread _
    · cases hnx

theorem isSome_of_at {P : Thread → Prop} (h : At p i P) : (p.threads[0]?).isSome := by
  obtain ⟨t, ht, -⟩ := h
  cases hts : p.threads with
  | nil => simp [hts] at ht
  | cons u us => rfl

theorem HasThread.next {p' : Proc} (h : HasThread p) (he : Enabled p e)
    (hnx : next past p e = some p') : HasThread p' := by
  cases e with
  | resume i => exact .inl ((isSome_resume hnx).trans (isSome_of_at he))
  | dispatch i =>
    cases hnx
    exact .inl ((isSome_dispatch past p i).trans (isSome_of_at he))
  | terminate i =>
    cases hnx
    exact .inr rfl
  | send sig =>
    cases hnx
    unfold comIpcSignalSendToProc sendToProc
    split
    · split
      · exact h
      · exact h.imp (isSome_sendLoop _ _ _).trans id
    · exact h
  | sigaction sig act =>
    cases hnx
    exact h
  | sigprocmask i how set | sigreturn i mask | sendToThread i sig | join i | schedule i | preempt i
  | sleep i | wakeUp i =>
    cases hnx
    exact h.imp (isSome_modifyThread _).trans id

/-- The two ways to keep `SIGKILL` off: masks, and a stop in which all threads wait. -/
theorem kill_deliverable (past : ℕ → ℕ) (p₀ : Proc) (h₀ : HasThread p₀ ∧ Unmasked p₀) :
    (∀ p, Reached past (fun _ _ => True) p₀ p → p.exited = false →
      (KillDeliverable (comIpcSignalSendToProc p SIGKILL) ↔ CanTake p)) ∧
    ∀ p, Reached past (fun _ e => LeavesUnmasked e) p₀ p → p.exited = false →
      (KillDeliverable (comIpcSignalSendToProc p SIGKILL) ↔
        (p.stopSignal = none ∨ ∃ t ∈ p.threads, Runnable t)) := by
  refine ⟨fun p _ hlv => killDeliverable_iff hlv, fun p h hlv => ?_⟩
  have hiv : HasThread p ∧ Unmasked p := by
    apply h.invariant (fun p => HasThread p ∧ Unmasked p) h₀
    rintro p e p' ⟨hth, hms⟩ ⟨hen, hok⟩ hnx
    exact ⟨hth.next hen hnx, hms.next hok hnx⟩
  rw [killDeliverable_iff hlv]
  constructor
  · rintro ⟨t, ht, -, hst | hrn⟩
    · exact .inl hst
    · exact .inr ⟨t, ht, hrn⟩
  · rintro (hst | ⟨t, ht, hrn⟩)
    · have hsm := hiv.1.resolve_right (by simp [hlv])
      obtain ⟨t, ht⟩ := isSome_iff_exists.mp hsm
      have hme := List.mem_of_getElem? ht
      exact ⟨t, hme, hiv.2.threads t hme, .inl hst⟩
    · exact ⟨t, ht, hiv.2.threads t ht, .inr hrn⟩

def oneThread : Proc where
  threads := [⟨0, 0, .running, .outside⟩]
  pending := 0
  sigaction _ := none
  stopSignal := none
  exited := false

/-- The thread blocks `SIGTERM` and sleeps. -/
theorem kill_deliverable_asleep : ∃ p, (∀ t ∈ p.threads, t.activity = .waiting .other) ∧
    KillDeliverable (comIpcSignalSendToProc p SIGKILL) := by
  have hsta : HasThread oneThread ∧ Unmasked oneThread :=
    ⟨.inl rfl, by decide, fun _ _ h => by cases h⟩
  have hterm : ∀ m, some (insert 0 (ofNumber 15)) = some m → ¬ Has m SIGKILL := by
    rintro m ⟨⟩
    decide
  refine ⟨_, ?_, ((kill_deliverable (fun _ => 0) oneThread hsta).2 _ (.step (.step .start
    (e := .sigprocmask 0 SIG_BLOCK _) ⟨⟨_, rfl, rfl, rfl⟩, .inr hterm⟩ rfl)
    (e := .sleep 0) ⟨⟨_, rfl, rfl, rfl⟩, trivial⟩ rfl) rfl).mpr (.inl rfl)⟩
  decide

/-- The thread masks `SIGKILL`; or it waits in a stop. -/
theorem kill_deferred :
    (∃ p, Reached (fun _ => 0) (fun _ _ => True) oneThread p ∧ p.exited = false ∧ ¬ KillDeliverable
      (comIpcSignalSendToProc p SIGKILL) ∧ ∀ t ∈ p.threads, Has t.masked SIGKILL) ∧
    ∃ p, Reached (fun _ => 0) (fun _ e => LeavesUnmasked e) oneThread p ∧ p.exited = false ∧
      ¬ KillDeliverable (comIpcSignalSendToProc p SIGKILL) ∧
      ∀ t ∈ p.threads, t.activity = .waiting .stop := by
  constructor
  · refine ⟨_, .step .start (e := .sigprocmask 0 SIG_BLOCK (some (insert 0 SIGKILL)))
      ⟨⟨_, rfl, rfl, rfl⟩, trivial⟩ rfl, rfl, by decide, by decide⟩
  · refine ⟨_, .step (.step (.step .start
      (e := .send (ofNumber 19)) ⟨trivial, trivial⟩ rfl)
      (e := .dispatch 0) ⟨⟨_, rfl, rfl, rfl⟩, trivial⟩ rfl)
      (e := .join 0) ⟨⟨_, rfl, rfl, rfl⟩, trivial⟩ rfl, rfl, by decide, by decide⟩

end SignalKill
