import SalernosKernel.ProcessTable

/-! # References to processes

What the functions of the process table do to `num_ref` and to the tree of processes. A process is
in the tree as long as there is a reference to it. -/
namespace ProcessReferences

open ProcessTable RadixTree Option

structure Facts where
  parentPid : ℕ
  numChildren : ℕ
  numRef : ℕ
  exited : Bool
  deriving DecidableEq

def facts (s : State) (p : ℕ) : Facts :=
  ⟨(s.proc p).parentPid, (s.proc p).numChildren, (s.proc p).numRef, (s.proc p).signals.exited⟩

def Created (s : State) (p : ℕ) : Prop := 1 ≤ p ∧ p < s.nextPid

structure Indexed (s : State) : Prop where
  pos : 1 ≤ s.nextPid
  bound : s.nextPid ≤ procMax + 1
  get : ∀ i < 512 ^ 2, ∀ q, kradixtreeGetNolock s.processes i = some q ↔
    q = i + 1 ∧ Created s q ∧ (facts s q).numRef ≠ 0

variable {s s' s'' : State} {p q g : ℕ} {pid : ℤ} {f : Facts → Facts}

theorem created_iff (h : s'.nextPid = s.nextPid) : Created s' q ↔ Created s q := by
  simp [Created, h]

theorem Indexed.created_lt (h : Indexed s) (hq : Created s q) : q < 512 ^ 2 := by
  have hbd := h.bound
  have hlt := hq.2
  norm_num [procMax] at hbd ⊢
  omega

theorem Indexed.lt (h : Indexed s) (hq : Created s q) : q - 1 < 512 ^ 2 :=
  lt_of_le_of_lt (Nat.sub_le q 1) (h.created_lt hq)

theorem Indexed.find (h : Indexed s) :
    s.find pid = some q ↔ pid = q ∧ Created s q ∧ (facts s q).numRef ≠ 0 := by
  have hbd := h.bound
  unfold State.find
  split
  · next hou =>
    simp only [reduceCtorEq, false_iff]
    rintro ⟨rfl, ⟨hps, hlt⟩, -⟩
    omega
  · next hin =>
    have hlt : pid.toNat - 1 < 512 ^ 2 := by
      norm_num [procMax] at hin ⊢
      omega
    rw [h.get _ hlt]
    have hif : q = pid.toNat - 1 + 1 ↔ pid = q := by omega
    rw [hif]

variable {c : ℕ}

theorem Indexed.arbitraryChild {stale : ℕ → Option ℕ} (h : Indexed s)
    (hst : ∀ i c, stale i = some c → Created s c)
    (hpc : comSysProcGetArbitraryChild s stale p = (some c, s')) :
    s' = s.hold c ∧ Created s c ∧ s.LiveChild p c := by
  have hbd := h.bound
  unfold comSysProcGetArbitraryChild at hpc
  split at hpc
  · cases hpc
  · next d hfd =>
    obtain ⟨hd, rfl⟩ := Prod.mk.inj hpc
    obtain rfl := some.inj hd
    obtain ⟨i, hi, hso⟩ := List.exists_of_findSome?_eq_some hfd
    obtain ⟨hcn, hlv⟩ := filter_eq_some_iff.mp hso
    refine ⟨rfl, ?_, by simpa using hlv⟩
    have hlt : i < 512 ^ 2 := by
      simp only [List.mem_range] at hi
      norm_num [procMax] at hbd ⊢
      omega
    rcases or_eq_some_iff.mp hcn with hgt | ⟨-, hgt⟩
    · exact ((h.get i hlt d).mp hgt).2.1
    · exact hst i d hgt

theorem Indexed.referenced (h : Indexed s) (h' : Indexed s') (hnx : s'.nextPid = s.nextPid)
    (hpr : s'.processes = s.processes) (hq : Created s q) :
    (facts s' q).numRef ≠ 0 ↔ (facts s q).numRef ≠ 0 := by
  have hps := hq.1
  have hix : q = q - 1 + 1 := by omega
  have hq' : Created s' q := (created_iff hnx).mpr hq
  have hgt := h.get (q - 1) (h.lt hq) q
  have hgt' := h'.get (q - 1) (h.lt hq) q
  rw [hpr, hgt] at hgt'
  simpa [← hix, hq, hq'] using hgt'.symm

structure Changed (p : ℕ) (f : Facts → Facts) (s s' : State) : Prop where
  nextPid : s'.nextPid = s.nextPid
  facts : ∀ q, facts s' q = if q = p then f (facts s p) else facts s q

theorem Changed.created (h : Changed p f s s') : Created s' q ↔ Created s q :=
  created_iff h.nextPid

structure SameFacts (s s' : State) : Prop where
  nextPid : s'.nextPid = s.nextPid
  processes : s'.processes = s.processes
  facts : ∀ q, facts s' q = facts s q

theorem SameFacts.refl (s : State) : SameFacts s s := ⟨rfl, rfl, fun _ => rfl⟩

theorem SameFacts.trans (h : SameFacts s s') (h' : SameFacts s' s'') : SameFacts s s'' :=
  ⟨h'.nextPid.trans h.nextPid, h'.processes.trans h.processes,
    fun q => (h'.facts q).trans (h.facts q)⟩

theorem SameFacts.indexed (h : SameFacts s s') (hs : Indexed s) : Indexed s' := by
  refine ⟨h.nextPid ▸ hs.pos, h.nextPid ▸ hs.bound, fun i hi q => ?_⟩
  rw [h.processes, hs.get i hi, h.facts, Created, Created, h.nextPid]

theorem Changed.trans_same (h : Changed p f s s') (h' : SameFacts s' s'') : Changed p f s s'' :=
  ⟨h'.nextPid.trans h.nextPid, fun q => (h'.facts q).trans (h.facts q)⟩

theorem Changed.indexed (h : Changed p f s s') (hs : Indexed s) (hpr : s'.processes = s.processes)
    (hf : (f (ProcessReferences.facts s p)).numRef ≠ 0 ↔
      (ProcessReferences.facts s p).numRef ≠ 0) : Indexed s' := by
  refine ⟨h.nextPid ▸ hs.pos, h.nextPid ▸ hs.bound, fun i hi q => ?_⟩
  rw [hpr, hs.get i hi, h.created, h.facts]
  by_cases hq : q = p
  · subst hq
    simp only [if_true, hf]
  · rw [if_neg hq]

variable {k : Process → Process}

theorem sameFacts_modify (hk : ∀ proc : Process, (k proc).parentPid = proc.parentPid ∧
      (k proc).numChildren = proc.numChildren ∧ (k proc).numRef = proc.numRef ∧
      (k proc).signals.exited = proc.signals.exited) : SameFacts s (s.modify p k) := by
  refine ⟨rfl, rfl, fun q => modify_reads (fun proc => (⟨proc.parentPid, proc.numChildren,
    proc.numRef, proc.signals.exited⟩ : Facts)) fun proc => ?_⟩
  obtain ⟨h₁, h₂, h₃, h₄⟩ := hk proc
  rw [h₁, h₂, h₃, h₄]

theorem sameFacts_notified :
    SameFacts s (s.modify c fun _ => { s.proc c with stopNotified := true }) := by
  refine ⟨rfl, rfl, fun q => ?_⟩
  by_cases hq : q = c <;> simp [facts, hq]

theorem sameFacts_modifyGroup {k : Group → Group} : SameFacts s (s.modifyGroup g k) :=
  ⟨rfl, rfl, fun _ => rfl⟩

theorem sameFacts_enter : SameFacts s (s.enter p g) :=
  sameFacts_modifyGroup.trans (sameFacts_modify fun _ => ⟨rfl, rfl, rfl, rfl⟩)

theorem sameFacts_join (h : comSysProcJoinGroupNolock s p g = some s') : SameFacts s s' := by
  unfold comSysProcJoinGroupNolock at h
  split at h
  · cases h
    exact sameFacts_enter
  · split at h
    · cases h
    · cases h
      exact sameFacts_modifyGroup.trans sameFacts_enter

theorem sameFacts_newGroup {session : Option ℕ} (h : comSysProcNewGroup s p session = some (g, s')) :
    SameFacts s s' := by
  obtain ⟨tree, -, h⟩ := map_eq_some_iff.mp h
  cases h
  exact ⟨rfl, rfl, fun _ => rfl⟩

theorem sameFacts_newSession (h : comSysProcNewSessionNolock s p = some s') : SameFacts s s' := by
  obtain ⟨⟨g, t⟩, hgr, hjn⟩ := bind_eq_some_iff.mp h
  refine SameFacts.trans ?_ ((sameFacts_newGroup hgr).trans (sameFacts_join hjn))
  split
  · exact SameFacts.refl s
  · exact sameFacts_modifyGroup

def Facts.hold (x : Facts) : Facts := { x with numRef := x.numRef + 1 }

def Facts.release (x : Facts) : Facts := { x with numRef := x.numRef - 1 }

theorem changed_modify (hk : facts (s.modify p k) p = f (facts s p)) :
    Changed p f s (s.modify p k) := by
  refine ⟨rfl, fun q => ?_⟩
  by_cases hq : q = p
  · rw [if_pos hq, hq, hk]
  · simp [facts, hq]

theorem changed_hold (s : State) (p : ℕ) : Changed p Facts.hold s (s.hold p) :=
  changed_modify (by simp [facts, Facts.hold])

theorem Indexed.hold (h : Indexed s) (hp : (facts s p).numRef ≠ 0) : Indexed (s.hold p) :=
  (changed_hold s p).indexed h rfl (by simp [Facts.hold, hp])

variable {tree : Tree ℕ 1}

theorem hide_spec (h : kradixtreeRemoveNolock s.processes (p - 1) = some tree) :
    ∃ s', comSysProcHide s p = some s' ∧ s'.processes = tree ∧ s'.nextPid = s.nextPid ∧
      ∀ q, facts s' q = facts s q := by
  have hkp : ∀ t : State, SameFacts t (t.modify p fun proc => { proc with procGroup := none }) :=
    fun t => sameFacts_modify fun _ => ⟨rfl, rfl, rfl, rfl⟩
  unfold comSysProcHide
  rw [h, map_some]
  refine ⟨_, rfl, ?_, ?_, fun q => ?_⟩
  · dsimp only
    split <;> rfl
  · dsimp only
    split <;> rfl
  · dsimp only
    split
    · exact (hkp _).facts q
    · exact (hkp _).facts q

theorem Indexed.release (h : Indexed s) (hp : Created s p) (hrf : (facts s p).numRef ≠ 0) :
    ∃ s', s.release p = some s' ∧ Indexed s' ∧ Changed p Facts.release s s' := by
  let t := s.modify p fun proc => { proc with numRef := proc.numRef - 1 }
  have ht : Changed p Facts.release s t :=
    changed_modify (by simp [ProcessReferences.facts, Facts.release])
  have hnm : (t.proc p).numRef = (facts s p).numRef - 1 := by simp [t, ProcessReferences.facts]
  have hix : p - 1 + 1 = p := by have := hp.1; omega
  have hgt : kradixtreeGetNolock s.processes (p - 1) = some p :=
    (h.get _ (h.lt hp) p).mpr ⟨hix.symm, hp, hrf⟩
  by_cases hon : (facts s p).numRef = 1
  · obtain ⟨tree, htr⟩ := isSome_iff_exists.mp (remove_isSome hgt)
    obtain ⟨s', hs', hprc, hnx, hft⟩ := hide_spec (s := t) htr
    have hch : Changed p Facts.release s s' :=
      ⟨hnx, fun q => (hft q).trans (ht.facts q)⟩
    refine ⟨s', ?_, ⟨hnx ▸ h.pos, hnx ▸ h.bound, fun i hi q => ?_⟩, hch⟩
    · unfold State.release
      rw [if_pos (hnm.trans (by omega))]
      exact hs'
    · rw [hprc, get_remove htr, hch.created, hch.facts]
      by_cases hip : i = p - 1
      · subst hip
        simp only [if_true, reduceCtorEq, hix, false_iff]
        rintro ⟨rfl, -, hne⟩
        simp [Facts.release, hon] at hne
      · have hsp : splitIndex 1 i ≠ splitIndex 1 (p - 1) := fun heq =>
          hip ((splitIndex_eq hi (h.lt hp)).mp heq)
        rw [if_neg hsp, h.get i hi]
        constructor
        · rintro ⟨rfl, hq⟩
          have hne : i + 1 ≠ p := by omega
          simpa [hne] using hq
        · rintro ⟨rfl, hq⟩
          have hne : i + 1 ≠ p := by omega
          simpa [hne] using hq
  · have hkt : (facts s p).numRef - 1 ≠ 0 := by omega
    refine ⟨t, ?_, ht.indexed h rfl ⟨fun _ => hrf, fun _ => hkt⟩, ht⟩
    exact if_neg (by rw [hnm]; exact hkt)

theorem release_hold (h : (facts s p).numRef ≠ 0) : (s.hold p).release p = some s := by
  have hs : (s.hold p).modify p (fun proc => { proc with numRef := proc.numRef - 1 }) = s := by
    simp [State.hold, State.modify]
  unfold State.release
  rw [hs]
  exact if_neg h

theorem Indexed.register {x : Process} (h : Indexed s)
    (hmx : s.nextPid ≤ procMax) (hrf : x.numRef ≠ 0)
    (htr : kradixtreePutNolock s.processes (s.nextPid - 1) s.nextPid = some tree) :
    Indexed { s with
      nextPid := s.nextPid + 1
      processes := tree
      proc := Function.update s.proc s.nextPid x } := by
  have hps := h.pos
  have hlt : s.nextPid - 1 < 512 ^ 2 := by
    norm_num [procMax] at hmx ⊢
    omega
  refine ⟨Nat.le_add_left 1 s.nextPid, Nat.succ_le_succ hmx, fun i hi q => ?_⟩
  rw [get_put htr]
  by_cases hip : i = s.nextPid - 1
  · subst hip
    simp only [if_true, some.injEq]
    constructor
    · rintro rfl
      exact ⟨by omega, ⟨hps, Nat.lt_succ_self _⟩, by simpa [facts] using hrf⟩
    · rintro ⟨rfl, -⟩
      omega
  · have hsp : splitIndex 1 i ≠ splitIndex 1 (s.nextPid - 1) := fun heq =>
      hip ((splitIndex_eq hi hlt).mp heq)
    rw [if_neg hsp, h.get i hi]
    have hot : q = i + 1 → q ≠ s.nextPid := by omega
    constructor
    · rintro ⟨hq, ⟨hle, hlt⟩, hne⟩
      exact ⟨hq, ⟨hle, by simp only; omega⟩, by simpa [facts, hot hq] using hne⟩
    · rintro ⟨hq, ⟨hle, hlt⟩, hne⟩
      simp only at hlt
      exact ⟨hq, ⟨hle, by omega⟩, by simpa [facts, hot hq] using hne⟩

structure Added (new : Facts) (others : ℕ → Facts) (s s' : State) : Prop where
  nextPid : s'.nextPid = s.nextPid + 1
  facts : ∀ q, facts s' q = if q = s.nextPid then new else others q

variable {memory : Signals.Signal → Option Signals.Sigaction}

theorem new_spec {parent : ℕ}
    (h : Indexed s) (hnw : comSysProcNew s parent memory = some (c, s')) :
    c = s.nextPid ∧ Indexed s' ∧ Added ⟨parent, 0, 1, false⟩ (facts s) s s' := by
  unfold comSysProcNew at hnw
  split at hnw
  · next hmx =>
    obtain ⟨tree, htr, hnw⟩ := bind_eq_some_iff.mp hnw
    have ht := h.register (x := Process.new parent memory) hmx one_ne_zero htr
    have had : Added ⟨parent, 0, 1, false⟩ (facts s) s { s with
        nextPid := s.nextPid + 1
        processes := tree
        proc := Function.update s.proc s.nextPid (Process.new parent memory) } := by
      refine ⟨rfl, fun q => ?_⟩
      by_cases hq : q = s.nextPid
      · subst hq
        simp [facts, Process.new]
      · simp [facts, hq]
    revert hnw ht had
    generalize { s with
      nextPid := s.nextPid + 1
      processes := tree
      proc := Function.update s.proc s.nextPid (Process.new parent memory) } = t
    intro hnw ht had
    unfold comSysProcGetByPid at hnw
    cases hfd : t.find parent with
    | none =>
      simp only [hfd, some.injEq, Prod.mk.injEq] at hnw
      obtain ⟨rfl, rfl⟩ := hnw
      exact ⟨rfl, ht, had⟩
    | some r =>
      obtain ⟨-, hr, hrf⟩ := ht.find.mp hfd
      simp only [hfd] at hnw
      obtain ⟨u, hjn, hnw⟩ := bind_eq_some_iff.mp hnw
      obtain ⟨v, hv, hnw⟩ := map_eq_some_iff.mp hnw
      obtain ⟨rfl, rfl⟩ := Prod.mk.inj hnw
      have hsm : SameFacts (t.hold r) u := by
        split at hjn
        · obtain rfl := some.inj hjn
          exact SameFacts.refl _
        · exact sameFacts_join hjn
      have hhd := changed_hold t r
      have hu := hsm.indexed (ht.hold hrf)
      have hfc : facts u r = (facts t r).hold := by rw [hsm.facts, hhd.facts, if_pos rfl]
      have hcr : Created u r := (created_iff hsm.nextPid).mpr hr
      obtain ⟨w, hw, hid, hrl⟩ := hu.release hcr (by simp [hfc, Facts.hold])
      obtain rfl : w = v := some.inj (hw.symm.trans hv)
      refine ⟨rfl, hid, hrl.nextPid.trans (hsm.nextPid.trans had.nextPid), fun q => ?_⟩
      rw [← had.facts q, hrl.facts]
      by_cases hq : q = r
      · subst hq
        simp [hfc, Facts.hold, Facts.release]
      · rw [if_neg hq, hsm.facts, hhd.facts, if_neg hq]
  · cases hnw

def Facts.addChild (x : Facts) : Facts := { x with numChildren := x.numChildren + 1 }

theorem fork_spec
    (h : Indexed s) (hp : Created s p) (hfr : comSysSyscallFork s p memory = some (c, s')) :
    c = s.nextPid ∧ Indexed s' ∧ Added ⟨p, 0, 2, false⟩
      (fun q => if q = p then (facts s p).addChild else facts s q) s s' := by
  obtain ⟨⟨c, t⟩, hnw, hfr⟩ := map_eq_some_iff.mp hfr
  obtain ⟨rfl, ht, had⟩ := new_spec h hnw
  obtain ⟨rfl, hs'⟩ := Prod.mk.inj hfr
  have hne : s.nextPid ≠ p := hp.2.ne'
  have hcl : facts t s.nextPid = ⟨p, 0, 1, false⟩ := by rw [had.facts, if_pos rfl]
  -- The thread of the child takes a reference.
  have hth : Changed s.nextPid Facts.hold t (t.addThread s.nextPid) :=
    (changed_hold t s.nextPid).trans_same (sameFacts_modify fun _ => ⟨rfl, rfl, rfl, rfl⟩)
  have hth' := hth.indexed ht rfl (by simp [hcl, Facts.hold])
  have hpa : Changed p Facts.addChild (t.addThread s.nextPid)
      ((t.addThread s.nextPid).modify p fun proc =>
        { proc with numChildren := proc.numChildren + 1 }) :=
    changed_modify (by simp [facts, Facts.addChild])
  have hpa' := hpa.indexed hth' rfl Iff.rfl
  have hls : SameFacts ((t.addThread s.nextPid).modify p fun proc =>
      { proc with numChildren := proc.numChildren + 1 }) s' := by
    rw [← hs']
    exact sameFacts_modify fun _ => ⟨rfl, rfl, rfl, rfl⟩
  refine ⟨rfl, hls.indexed hpa', hls.nextPid.trans had.nextPid, fun q => ?_⟩
  rw [hls.facts, hpa.facts, hth.facts, hth.facts]
  by_cases hq : q = s.nextPid
  · subst hq
    simp [hne, hcl, Facts.hold]
  · by_cases hqp : q = p
    · subst hqp
      simp [hq, had.facts]
    · simp [hq, hqp, had.facts]

structure Exits (p : ℕ) (s s' : State) : Prop where
  nextPid : s'.nextPid = s.nextPid
  processes : s'.processes = s.processes
  parentPid : ∀ q, (facts s' q).parentPid = (facts s q).parentPid
  numChildren : ∀ q, (facts s' q).numChildren = (facts s q).numChildren
  numRef : ∀ q, (facts s q).numRef ≤ (facts s' q).numRef
  exited : ∀ q, (facts s' q).exited = if q = p then true else (facts s q).exited

theorem sameFacts_notifyAll (s : State) (waiters : List ℕ) : SameFacts s (s.notifyAll waiters) :=
  List.foldlRecOn waiters _ (SameFacts.refl s) fun _ ht _ _ =>
    ht.trans (sameFacts_modify fun _ => ⟨rfl, rfl, rfl, rfl⟩)

theorem sameFacts_send (s : State) (p : ℕ) (sig : Signals.Signal) : SameFacts s (s.send p sig) :=
  sameFacts_modify fun _ => ⟨rfl, rfl, rfl, Signals.send_exited _ _⟩

theorem sendToPid_spec (h : Indexed s) (pid : ℤ) (sig : Signals.Signal) :
    Indexed (s.sendToPid pid sig) ∧ (s.sendToPid pid sig).nextPid = s.nextPid ∧
      (s.sendToPid pid sig).processes = s.processes ∧
      ∃ gain : ℕ → ℕ, ∀ q, facts (s.sendToPid pid sig) q =
        { facts s q with numRef := (facts s q).numRef + gain q } := by
  unfold State.sendToPid comSysProcGetByPid
  cases hfd : s.find pid with
  | none => exact ⟨h, rfl, rfl, 0, fun _ => rfl⟩
  | some p =>
    obtain ⟨-, -, hrf⟩ := h.find.mp hfd
    have hsn := sameFacts_send (s.hold p) p sig
    refine ⟨hsn.indexed (h.hold hrf), rfl, rfl, fun q => if q = p then 1 else 0, fun q => ?_⟩
    rw [hsn.facts, (changed_hold s p).facts]
    by_cases hq : q = p
    · subst hq
      simp [Facts.hold]
    · simp [hq]

theorem exit_spec (h : Indexed s) (p : ℕ) (status : ℤ) (waiters : List ℕ) :
    Indexed (comSysProcExit s p status waiters) ∧ Exits p s (comSysProcExit s p status waiters) := by
  let s₁ := s.modify p fun proc => { proc with
    exitStatus := status
    signals := { proc.signals with exited := true } }
  have hs₁ : Changed p (fun x => { x with exited := true }) s s₁ :=
    changed_modify (by simp [facts])
  let s₂ := s₁.notifyAll waiters
  have hs₂ := sameFacts_notifyAll s₁ waiters
  obtain ⟨hi₃, hnx₃, hpr₃, gain, hs₃⟩ := sendToPid_spec (hs₂.indexed (hs₁.indexed h rfl Iff.rfl))
    (s₁.proc p).parentPid Signals.SIGCHLD
  have hs₄ : SameFacts (s₂.sendToPid (s₁.proc p).parentPid Signals.SIGCHLD)
      (comSysProcExit s p status waiters) := by
    unfold comSysProcExit
    exact sameFacts_modify fun _ => ⟨rfl, rfl, rfl, rfl⟩
  have hal : ∀ q, facts (comSysProcExit s p status waiters) q =
      { facts s q with
        exited := if q = p then true else (facts s q).exited
        numRef := (facts s q).numRef + gain q } := by
    intro q
    rw [hs₄.facts, hs₃, hs₂.facts, hs₁.facts]
    by_cases hq : q = p
    · subst hq
      simp
    · simp [hq]
  exact ⟨hs₄.indexed hi₃, hs₄.nextPid.trans (hnx₃.trans hs₂.nextPid),
    hs₄.processes.trans (hpr₃.trans hs₂.processes), fun q => by rw [hal],
    fun q => by rw [hal], fun q => by rw [hal]; exact Nat.le_add_right _ _, fun q => by rw [hal]⟩

theorem indexed_empty : Indexed State.empty := by
  refine ⟨le_rfl, by decide, fun i _ q => ?_⟩
  have hno : kradixtreeGetNolock State.empty.processes i = none :=
    RadixTable.getD_lookup_blank none _
  rw [hno]
  simp only [reduceCtorEq, false_iff]
  rintro ⟨-, ⟨hps, hlt⟩, -⟩
  exact absurd hps (not_le.mpr hlt)

theorem init_spec (h : comInitPid1 memory = some s) :
    Indexed s ∧ s.nextPid = 2 ∧ facts s 1 = ⟨0, 0, 2, false⟩ := by
  obtain ⟨⟨c, t⟩, hnw, hss⟩ := bind_eq_some_iff.mp h
  obtain ⟨rfl, ht, had⟩ := new_spec indexed_empty hnw
  have hfs : facts t 1 = ⟨0, 0, 1, false⟩ := had.facts 1
  have hth : Changed 1 Facts.hold t (t.addThread 1) :=
    (changed_hold t 1).trans_same (sameFacts_modify fun _ => ⟨rfl, rfl, rfl, rfl⟩)
  have hsm : SameFacts (t.addThread 1) s := sameFacts_newSession hss
  refine ⟨hsm.indexed (hth.indexed ht rfl (by simp [hfs, Facts.hold])),
    hsm.nextPid.trans had.nextPid, ?_⟩
  rw [hsm.facts, hth.facts, if_pos rfl, hfs]
  rfl

end ProcessReferences
