import SalernosKernel.ProcessFiles

/-! # The bound on open descriptors

`fork`, `execve` and the exit of a process go through the table up to `max_fd`. -/
namespace FileDescriptorBound

open FileDescriptors ProcessFiles

def Bounded (p : Proc) : Prop := ∀ i < openMax, InUse p.fd i → i < p.maxFd

def AllBounded (s : System) : Prop := ∀ pid p, s.procs pid = some p → Bounded p

def FirstFree (fd : Table) (i t : ℕ) : Prop :=
  i ≤ t ∧ t < openMax ∧ ¬ InUse fd t ∧ ∀ j, i ≤ j → j < t → InUse fd j

def Covered (p : Proc) (i : ℕ) : Prop :=
  i < p.maxFd ∨ ∃ j, i < j ∧ j < openMax ∧ ¬ InUse p.fd j

def HintPast (p : Proc) (t : ℕ) : Prop :=
  ((∃ j, p.nextFd ≤ j ∧ j < openMax ∧ j ≠ t ∧ ¬ InUse p.fd j) ∧
    ∀ j, p.nextFd ≤ j → j < t → InUse p.fd j) ∨
  ((∀ j, p.nextFd ≤ j → j < openMax → j ≠ t → InUse p.fd j) ∧ ∀ j < t, InUse p.fd j)

def Keeps (p : Proc) : Event → Prop
  | .openat _ dirFd lookup _ _ => (∃ f, comSysProcGetDirectory p dirFd = .ok f) → lookup = none →
      p.nextFd < openMax → Covered p p.nextFd
  | .pipe .. => p.nextFd < openMax →
      (∀ w, FirstFree p.fd (p.nextFd + 1) w → Covered p w) ∧
        ((∀ w, ¬ FirstFree p.fd (p.nextFd + 1) w) → p.nextFd < p.maxFd)
  | .dup3 _ oldFd newFd => ¬ Rejected oldFd → ¬ Rejected newFd → newFd.toNat < openMax →
      InUse p.fd oldFd.toNat → ¬ InUse p.fd newFd.toNat →
        newFd.toNat < p.maxFd ∨ HintPast p newFd.toNat
  | .fcntlDup _ fd arg _ => ¬ Rejected fd → ¬ Rejected arg → InUse p.fd fd.toNat →
      ∀ t, FirstFree p.fd arg.toNat t → t < p.maxFd ∨ HintPast p t
  | .fork _ mem => ∀ i < openMax, InUse p.fd i ∨ InUse mem.fd i → i < mem.maxFd
  | .close .. | .execve .. => True

variable {p p' mem : Proc} {files : Files} {s s' : System} {e : Event} {fd fd' : Table}
  {i j t w : ℕ}

theorem FirstFree.eq_skipOpen (h : FirstFree fd i t) : skipOpen fd i = t :=
  skipOpen_eq h.1 h.2.1.le h.2.2.2 fun _ => h.2.2.1

theorem firstFree_skipOpen (h : skipOpen fd i < openMax) : FirstFree fd i (skipOpen fd i) :=
  ⟨le_skipOpen fd i, h, not_inUse_skipOpen h, fun _ => inUse_of_lt_skipOpen⟩

section

variable (h : Bounded p)

include h

theorem Bounded.mono (hfd : ∀ i < openMax, InUse p'.fd i → InUse p.fd i)
    (hmx : p.maxFd ≤ p'.maxFd) : Bounded p' :=
  fun i hi hus => (h i hi (hfd i hi hus)).trans_le hmx

theorem Bounded.advance : Bounded p.advance :=
  h.mono (fun _ _ => id) (le_max_left _ _)

theorem bounded_install_iff (hi : i < openMax) (file : FilePtr) :
    Bounded (p.install i file) ↔ i < p.maxFd := by
  constructor
  · intro h'
    exact h' i hi (inUse_install.mpr (.inl rfl))
  · intro hlt j hj hus
    rcases inUse_install.mp hus with rfl | hus
    · exact hlt
    · exact h j hj hus

theorem covered_iff (hi : i < openMax) :
    Covered p i ↔ i < p.maxFd ∨ i < hint p.fd (i + 1) := by
  constructor
  · rintro (hlt | ⟨j, hij, hj, hfr⟩)
    · exact .inl hlt
    · right
      rw [hint_of_lt ((skipOpen_le_of_free hij hfr).trans_lt hj)]
      exact le_skipOpen _ _
  · rintro (hlt | hlt)
    · exact .inl hlt
    · by_cases hsk : skipOpen p.fd (i + 1) < openMax
      · exact .inr ⟨_, le_skipOpen _ _, hsk, not_inUse_skipOpen hsk⟩
      · -- The search has started over and gone past `i`.
        rw [hint, if_neg hsk] at hlt
        exact .inl (h i hi (inUse_of_lt_skipOpen (Nat.zero_le _) hlt))

theorem bounded_openat_iff (file : FilePtr) :
    Bounded (comSysSyscallOpenat p none file).2 ↔ (p.nextFd < openMax → Covered p p.nextFd) := by
  rcases lt_or_ge p.nextFd openMax with hlt | hfl
  · rw [openat_ok hlt, bounded_install_iff h.advance hlt, covered_iff h hlt, advance_maxFd,
      lt_max_iff]
    exact ⟨fun hc _ => hc, fun hc => hc hlt⟩
  · rw [openat_full hfl]
    exact iff_of_true h.advance fun hlt => absurd hlt (not_lt_of_ge hfl)

theorem bounded_pipe_above (hr : p.nextFd < openMax)
    (hw : skipOpen p.fd (p.nextFd + 1) < openMax) (rf wf : FilePtr) :
    Bounded (comSysSyscallPipe p rf wf).2 ↔ Covered p (skipOpen p.fd (p.nextFd + 1)) := by
  have hnx : p.advance.nextFd = skipOpen p.fd (p.nextFd + 1) := hint_of_lt hw
  have hgt : p.nextFd < skipOpen p.fd (p.nextFd + 1) := le_skipOpen _ _
  have hmx : p.advance.advance.maxFd =
      max (max p.maxFd (skipOpen p.fd (p.nextFd + 1)))
        (hint p.fd (skipOpen p.fd (p.nextFd + 1) + 1)) := by
    rw [advance_maxFd, advance_maxFd, hnx, hint_of_lt hw, advance_fd]
  have hrd : Bounded (p.advance.advance.install p.nextFd rf) := by
    rw [bounded_install_iff h.advance.advance hr, hmx]
    omega
  rw [pipe_ok hr (hnx.trans_lt hw), hnx, bounded_install_iff hrd hw, install_maxFd, hmx,
    covered_iff h hw]
  omega

theorem bounded_pipe_wrap (hr : p.nextFd < openMax)
    (hw : ∀ j, p.nextFd + 1 ≤ j → j < openMax → InUse p.fd j) (rf wf : FilePtr) :
    Bounded (comSysSyscallPipe p rf wf).2 ↔ p.nextFd < p.maxFd := by
  have hnx : p.advance.nextFd = skipOpen p.fd 0 := hint_of_full hw
  rcases Nat.lt_or_ge (skipOpen p.fd 0) openMax with hlt | hfl
  · have hfr : ¬ InUse p.fd (skipOpen p.fd 0) := not_inUse_skipOpen hlt
    have hle : skipOpen p.fd 0 ≤ p.nextFd := by
      by_contra hgt
      exact hfr (hw _ (Nat.lt_of_not_le hgt) hlt)
    rw [pipe_ok hr (hnx.trans_lt hlt), hnx]
    constructor
    · intro h'
      by_contra hge
      have hfrr : ¬ InUse p.fd p.nextFd := fun hus => hge (h _ hr hus)
      have hrd := h' _ hr (inUse_install.mpr (.inr (inUse_install.mpr (.inl rfl))))
      rw [install_maxFd, install_maxFd, advance_maxFd, advance_maxFd, hnx, advance_fd,
        ← advance_nextFd, hnx] at hrd
      have hsc : hint p.fd (skipOpen p.fd 0 + 1) ≤ p.nextFd := by
        rcases Nat.lt_or_ge (skipOpen p.fd 0) p.nextFd with hlw | hhg
        · exact hint_le_of_free hlw hr hfrr
        · have heq := le_antisymm hle hhg
          rw [heq, ← advance_nextFd, hnx]
          exact hle
      omega
    · intro hmx
      have hmx' : p.nextFd < p.advance.advance.maxFd := by
        rw [advance_maxFd, advance_maxFd]
        omega
      have hrd := (bounded_install_iff h.advance.advance hr rf).mpr hmx'
      exact (bounded_install_iff hrd hlt wf).mpr (hle.trans_lt hmx')
  · rw [pipe_full (.inr (hnx ▸ hfl))]
    refine iff_of_true h.advance.advance (h _ hr ?_)
    exact inUse_of_lt_skipOpen (Nat.zero_le _) (hr.trans_le hfl)

theorem bounded_pipe_iff (pid : ℕ) (rf wf : FilePtr) :
    Bounded (comSysSyscallPipe p rf wf).2 ↔ Keeps p (.pipe pid rf wf) := by
  rcases lt_or_ge p.nextFd openMax with hr | hr
  · rcases lt_or_ge (skipOpen p.fd (p.nextFd + 1)) openMax with hw | hw
    · have hfs := firstFree_skipOpen hw
      rw [bounded_pipe_above h hr hw]
      constructor
      · intro hcv _
        refine ⟨fun w hw' => ?_, fun hno => absurd hfs (hno _)⟩
        rw [← hw'.eq_skipOpen]
        exact hcv
      · intro hkp
        exact (hkp hr).1 _ hfs
    · have hal : ∀ j, p.nextFd + 1 ≤ j → j < openMax → InUse p.fd j :=
        fun j hj hmx => inUse_of_lt_skipOpen hj (hmx.trans_le hw)
      have hno : ∀ w, ¬ FirstFree p.fd (p.nextFd + 1) w :=
        fun w hfs => hfs.2.2.1 (hal w hfs.1 hfs.2.1)
      rw [bounded_pipe_wrap h hr hal]
      constructor
      · intro hlt _
        exact ⟨fun w hw' => absurd hw' (hno w), fun _ => hlt⟩
      · intro hkp
        exact (hkp hr).2 hno
  · rw [pipe_full (.inl hr)]
    exact iff_of_true h.advance.advance fun hlt => absurd hlt (not_lt_of_ge hr)

end

theorem lt_hint_iff (ht : t < openMax) (hus : ∀ j, InUse fd' j ↔ j = t ∨ InUse p.fd j) :
    t < hint fd' p.nextFd ↔ HintPast p t := by
  by_cases hsk : skipOpen fd' p.nextFd < openMax
  · have hed : ¬ InUse fd' (skipOpen fd' p.nextFd) := not_inUse_skipOpen hsk
    rw [hus, not_or] at hed
    have hex : ∃ j, p.nextFd ≤ j ∧ j < openMax ∧ j ≠ t ∧ ¬ InUse p.fd j :=
      ⟨_, le_skipOpen _ _, hsk, hed.1, hed.2⟩
    rw [hint_of_lt hsk]
    constructor
    · intro hlt
      refine .inl ⟨hex, fun j hj hjt => ?_⟩
      exact ((hus j).mp (inUse_of_lt_skipOpen hj (hjt.trans hlt))).resolve_left hjt.ne
    · rintro (⟨-, hal⟩ | ⟨hno, -⟩)
      · by_contra hle
        rcases Nat.lt_or_eq_of_le (Nat.le_of_not_lt hle) with hlt | heq
        · exact hed.2 (hal _ (le_skipOpen _ _) hlt)
        · exact hed.1 heq
      · exact absurd (hno _ (le_skipOpen _ _) hsk hed.1) hed.2
  · have hal : ∀ j, p.nextFd ≤ j → j < openMax → InUse fd' j :=
      fun j hj hmx => inUse_of_lt_skipOpen hj (hmx.trans_le (Nat.le_of_not_lt hsk))
    have hrs : ∀ j, p.nextFd ≤ j → j < openMax → j ≠ t → InUse p.fd j :=
      fun j hj hmx hne => ((hus j).mp (hal j hj hmx)).resolve_left hne
    rw [hint_of_full hal]
    constructor
    · intro hlt
      refine .inr ⟨hrs, fun j hj => ?_⟩
      exact ((hus j).mp (inUse_of_lt_skipOpen (Nat.zero_le _) (hj.trans hlt))).resolve_left hj.ne
    · rintro (⟨⟨j, hj, hmx, hne, hfr⟩, -⟩ | ⟨-, hbl⟩)
      · exact absurd (hrs j hj hmx hne) hfr
      · by_contra hle
        have hle := Nat.le_of_not_lt hle
        have hfr := not_inUse_skipOpen (hle.trans_lt ht)
        rw [hus, not_or] at hfr
        exact hfr.2 (hbl _ (lt_of_le_of_ne hle hfr.1))

theorem bounded_copySlot_iff (h : Bounded p) (ht : t < openMax) (hi : InUse p.fd i) :
    Bounded (procUpdateFdHint (p.copySlot t i)) ↔ t < p.maxFd ∨ HintPast p t := by
  have hus : ∀ j, InUse (p.copySlot t i).fd j ↔ j = t ∨ InUse p.fd j := by
    intro j
    by_cases hj : j = t <;> simp [hj, hi]
  rw [← lt_hint_iff ht hus, ← lt_max_iff]
  constructor
  · intro h'
    exact h' t ht ((hus t).mpr (.inl rfl))
  · intro hlt j hj hjs
    rcases (hus j).mp hjs with rfl | hjs
    · exact hlt
    · exact (h j hj hjs).trans_le (le_max_left _ _)

theorem Bounded.copySlot (h : Bounded p) (ht : openMax ≤ t ∨ ¬ InUse p.fd i ∨ t < p.maxFd) :
    Bounded (procUpdateFdHint (p.copySlot t i)) := by
  intro j hj hus
  have hcp : if j = t then InUse p.fd i else InUse p.fd j := inUse_copySlot.mp hus
  have hle : p.maxFd ≤ (procUpdateFdHint (p.copySlot t i)).maxFd := le_max_left _ _
  by_cases hjt : j = t
  · rw [if_pos hjt] at hcp
    rw [hjt] at hj ⊢
    rcases ht with ht | ht | ht
    · exact absurd hj (not_lt_of_ge ht)
    · exact absurd hcp ht
    · exact ht.trans_le hle
  · rw [if_neg hjt] at hcp
    exact (h j hj hcp).trans_le hle

theorem Bounded.recycle (h : Bounded p) (i : ℕ) : Bounded (p.recycle i) :=
  h.mono (fun _ _ hus => (inUse_recycle.mp hus).2) le_rfl

theorem bounded_dup3_iff (h : Bounded p) (pid : ℕ) (oldFd newFd : ℤ) :
    Bounded (comSysSyscallDup3 p oldFd newFd).2 ↔ Keeps p (.dup3 pid oldFd newFd) := by
  unfold Keeps comSysSyscallDup3
  rcases closeFile_cases p newFd with ⟨err, hcl, hwh⟩ | ⟨file, hnw, hfi, hcl⟩
  · rw [hcl]
    rcases duplicate_cases p newFd oldFd with ⟨err', hdp, hwh'⟩ | ⟨hnw, hold, hfr, hdp⟩
    · rw [hdp]
      refine iff_of_true h fun hold hnw _ _ hfr => ?_
      rcases hwh' with hr | hr | hus
      · exact absurd hr hold
      · exact absurd hr hnw
      · rw [skipOpen_of_free (toNat_le_of_not_rejected hnw) hfr] at hus
        exact absurd hus hfr
    · have hfr' : ¬ InUse p.fd newFd.toNat := hwh.resolve_left hnw
      rw [hdp, skipOpen_of_free (toNat_le_of_not_rejected hnw) hfr']
      by_cases hcp : newFd.toNat < openMax ∧ InUse p.fd oldFd.toNat
      · rw [bounded_copySlot_iff h hcp.1 hcp.2]
        exact ⟨fun hc _ _ _ _ _ => hc, fun hc => hc hold hnw hcp.1 hcp.2 hfr'⟩
      · rw [not_and_or, not_lt] at hcp
        refine iff_of_true (h.copySlot (hcp.imp_right .inl)) fun _ _ hmx hus _ => ?_
        rcases hcp with hcp | hcp
        · exact absurd hmx (not_lt_of_ge hcp)
        · exact absurd hus hcp
  · -- The slot was in use, so that it is below the bound already.
    have hus : InUse p.fd newFd.toNat := by simp [InUse, hfi]
    have hcr : ¬ InUse (p.recycle newFd.toNat).fd newFd.toNat := by simp
    rw [hcl]
    refine iff_of_true ?_ fun _ _ _ _ hfr => absurd hus hfr
    rcases duplicate_cases (p.recycle newFd.toNat) newFd oldFd with ⟨err, hdp, -⟩ | ⟨-, -, -, hdp⟩
    · rw [hdp]
      exact h.recycle _
    · rw [hdp, skipOpen_of_free (toNat_le_of_not_rejected hnw) hcr]
      apply (h.recycle _).copySlot
      rcases lt_or_ge newFd.toNat openMax with hlt | hge
      · exact .inr (.inr (h _ hlt hus))
      · exact .inl hge

theorem bounded_setCloexec_iff : Bounded (p.setCloexec i) ↔ Bounded p := by
  unfold Bounded
  simp only [inUse_setCloexec]
  rfl

theorem bounded_fcntlDup_iff (h : Bounded p) (pid : ℕ) (fd arg : ℤ) (cloexec : Bool) :
    Bounded (comSysSyscallFcntlDup p fd arg cloexec).2 ↔
      Keeps p (.fcntlDup pid fd arg cloexec) := by
  rcases fcntlDup_cases p fd arg cloexec with ⟨err, heq, hwh⟩ | ⟨hfd, har, hus, p', -, hp', heq⟩
  · rw [heq]
    refine iff_of_true h fun hfd har hus t hfs => ?_
    have hfr : ¬ InUse p.fd t := hfs.2.2.1
    rw [hfs.eq_skipOpen] at hwh
    tauto
  · have hfg : Bounded (comSysSyscallFcntlDup p fd arg cloexec).2 ↔ Bounded p' := by
      rw [heq]
      cases cloexec with
      | false => rfl
      | true => exact bounded_setCloexec_iff
    rw [hfg, hp']
    rcases lt_or_ge (skipOpen p.fd arg.toNat) openMax with hlt | hge
    · rw [bounded_copySlot_iff h hlt hus]
      constructor
      · intro hc _ _ _ t hfs
        rw [← hfs.eq_skipOpen]
        exact hc
      · intro hkp
        exact hkp hfd har hus _ (firstFree_skipOpen hlt)
    · refine iff_of_true (h.copySlot (.inl hge)) fun _ _ _ t hfs => ?_
      rw [hfs.eq_skipOpen] at hge
      exact absurd hfs.2.1 (not_lt_of_ge hge)

theorem bounded_fork_iff (h : Bounded p) (pid : ℕ) :
    Bounded (fork p files mem).1 ↔ Keeps p (.fork pid mem) := by
  have hus : ∀ i < openMax, InUse (fork p files mem).1.fd i ↔ InUse p.fd i ∨ InUse mem.fd i := by
    intro i hi
    unfold InUse
    rw [fork_fd]
    by_cases hp : InUse p.fd i
    · rw [if_pos ⟨h i hi hp, hp⟩]
      exact ⟨.inl, fun _ => hp⟩
    · rw [if_neg fun hc => hp hc.2]
      exact ⟨.inr, fun hc => hc.resolve_left hp⟩
  constructor
  · intro h' i hi hor
    exact h' i hi ((hus i hi).mpr hor)
  · intro hkp i hi hor
    exact hkp i hi ((hus i hi).mp hor)

theorem inUse_execve (hus : InUse (execve p files).1.fd i) : InUse p.fd i := by
  unfold InUse at *
  rw [execve_fd] at hus
  split at hus
  · simp [Filedesc.zero] at hus
  · exact hus

structure Complete (p : Proc) (files : Files) : Prop where
  fork : ∀ mem, ∀ i < openMax, InUse p.fd i → (fork p files mem).1.fd i = p.fd i
  execve : ∀ i < openMax, isCloexec files (p.fd i) → (execve p files).1.fd i = .zero
  exit : (comSysProcExit p files).2.2 =
    (List.range openMax).filterMap fun i => (p.fd i).file

theorem Bounded.complete (h : Bounded p) (hmx : p.maxFd ≤ openMax) (files : Files) :
    Complete p files := by
  constructor
  · intro mem i hi hus
    rw [fork_fd, if_pos ⟨h i hi hus, hus⟩]
  · intro i hi hco
    have hus : InUse p.fd i := by
      intro hno
      simp [isCloexec, hno] at hco
    rw [execve_fd, if_pos ⟨h i hi hus, hco⟩]
  · have hrn : openMax = p.maxFd + (openMax - p.maxFd) := (Nat.add_sub_cancel' hmx).symm
    have hrs : ((List.range (openMax - p.maxFd)).map (p.maxFd + ·)).filterMap
        (fun i => (p.fd i).file) = [] := by
      rw [List.filterMap_eq_nil_iff]
      intro i hi
      obtain ⟨k, hk, rfl⟩ := List.mem_map.mp hi
      have hk := List.mem_range.mp hk
      by_contra hus
      have := h (p.maxFd + k) (by omega) hus
      omega
    rw [exit_released, hrn, List.range_add, List.filterMap_append, hrs, List.append_nil]

def Legal : Event → Prop
  | .fork _ mem => mem.maxFd ≤ openMax
  | _ => True

def KeepsBound (s : System) (e : Event) : Prop := ∀ p, s.procs e.pid = some p → Keeps p e

def Reached (ok : System → Event → Prop) (s₀ : System) : System → Prop :=
  Runs.Reaches (fun s e => some (next s e)) (fun s e => Legal e ∧ ok s e) s₀

theorem bounded_apply_iff (h : Bounded p) (he : ∀ pid mem, e ≠ .fork pid mem) :
    Bounded (e.apply p files).1 ↔ Keeps p e := by
  cases e with
  | openat pid dirFd lookup file flags =>
    rw [Event.apply]
    cases hdr : comSysProcGetDirectory p dirFd with
    | error err =>
      rw [openat_fst_error hdr]
      refine iff_of_true h fun hok => ?_
      rw [hdr] at hok
      simp at hok
    | ok dirFile =>
      rw [openat_fst_ok hdr]
      cases lookup with
      | some err => exact iff_of_true h fun _ hno => absurd hno (by simp)
      | none =>
        rw [bounded_openat_iff h]
        exact ⟨fun hc _ _ => hc, fun hc => hc ⟨_, hdr⟩ rfl⟩
  | pipe pid rf wf =>
    rw [Event.apply, pipe_fst]
    exact bounded_pipe_iff h pid rf wf
  | dup3 pid oldFd newFd =>
    rw [Event.apply, dup3_fst]
    exact bounded_dup3_iff h pid oldFd newFd
  | fcntlDup pid fd arg cloexec =>
    rw [Event.apply, fcntlDup_fst]
    exact bounded_fcntlDup_iff h pid fd arg cloexec
  | close pid fd =>
    rw [Event.apply, close_fst]
    refine iff_of_true ?_ trivial
    rcases closeFile_cases p fd with ⟨err, heq, -⟩ | ⟨file, -, -, heq⟩
    · rw [heq]
      exact h
    · rw [heq]
      exact h.recycle _
  | fork pid mem => exact absurd rfl (he pid mem)
  | execve pid => exact iff_of_true (h.mono (fun _ _ => inUse_execve) le_rfl) trivial

theorem allBounded_update_iff (h : AllBounded s) {pid : ℕ} {procs : ℕ → Option Proc} {n : ℕ}
    (hpc : procs = Function.update s.procs pid (some p)) :
    AllBounded ⟨procs, n, files⟩ ↔ Bounded p := by
  subst hpc
  constructor
  · intro h'
    exact h' pid p (Function.update_self _ _ _)
  · intro hp k q hq
    rcases eq_or_ne k pid with rfl | hne
    · obtain rfl : p = q := by simpa using hq
      exact hp
    · exact h k q (by simpa [Function.update_of_ne hne] using hq)

theorem allBounded_next_iff (h : AllBounded s) (e : Event) :
    AllBounded (next s e) ↔ KeepsBound s e := by
  unfold next KeepsBound
  cases hpr : s.procs e.pid with
  | none => exact iff_of_true h fun p hp => absurd hp (by simp)
  | some p =>
    have hp : Bounded p := h e.pid p hpr
    have hkp : (∀ q, some p = some q → Keeps q e) ↔ Keeps p e :=
      ⟨fun hq => hq p rfl, fun hq q heq => Option.some.inj heq ▸ hq⟩
    rw [hkp]
    cases e with
    | fork pid mem => exact (allBounded_update_iff h rfl).trans (bounded_fork_iff hp pid)
    | openat | pipe | dup3 | fcntlDup | close | execve =>
      exact (allBounded_update_iff h rfl).trans (bounded_apply_iff hp (by simp))

def AllWithin (s : System) : Prop := ∀ pid p, s.procs pid = some p → p.maxFd ≤ openMax

theorem maxFd_procUpdateFdHint_le (h : p.maxFd ≤ openMax) :
    (procUpdateFdHint p).maxFd ≤ openMax := max_le h hint_le

theorem maxFd_duplicate_le (h : p.maxFd ≤ openMax) (newFd oldFd : ℤ) :
    (comSysProcDuplicateFileNolock p newFd oldFd).2.maxFd ≤ openMax := by
  rcases duplicate_cases p newFd oldFd with ⟨err, heq, -⟩ | ⟨-, -, -, heq⟩
  · rw [heq]
    exact h
  · rw [heq]
    exact maxFd_procUpdateFdHint_le h

theorem maxFd_closeFile (p : Proc) (fd : ℤ) :
    (comSysProcCloseFileNolock p fd).2.maxFd = p.maxFd := by
  rcases closeFile_cases p fd with ⟨err, heq, -⟩ | ⟨file, -, -, heq⟩ <;> rw [heq]
  rfl

theorem maxFd_apply_le (h : p.maxFd ≤ openMax) (e : Event) :
    (e.apply p files).1.maxFd ≤ openMax := by
  have had : p.advance.maxFd ≤ openMax := maxFd_procUpdateFdHint_le h
  cases e with
  | openat pid dirFd lookup file flags =>
    rw [Event.apply]
    cases hdr : comSysProcGetDirectory p dirFd with
    | error err =>
      rw [openat_fst_error hdr]
      exact h
    | ok dirFile =>
      rw [openat_fst_ok hdr]
      cases lookup with
      | some err => exact h
      | none =>
        rcases lt_or_ge p.nextFd openMax with hlt | hfl
        · rw [openat_ok hlt]
          exact had
        · rw [openat_full hfl]
          exact had
  | pipe pid rf wf =>
    have hsc : p.advance.advance.maxFd ≤ openMax := maxFd_procUpdateFdHint_le had
    rw [Event.apply, pipe_fst]
    by_cases hfl : openMax ≤ p.nextFd ∨ openMax ≤ p.advance.nextFd
    · rw [pipe_full hfl]
      exact hsc
    · rw [not_or, not_le, not_le] at hfl
      rw [pipe_ok hfl.1 hfl.2]
      exact hsc
  | dup3 pid oldFd newFd =>
    rw [Event.apply, dup3_fst]
    apply maxFd_duplicate_le
    rw [maxFd_closeFile]
    exact h
  | fcntlDup pid fd arg cloexec =>
    rw [Event.apply, fcntlDup_fst]
    rcases fcntlDup_cases p fd arg cloexec with ⟨err, heq, -⟩ | ⟨-, -, -, p', -, hp', heq⟩
    · rw [heq]
      exact h
    · have hle : p'.maxFd ≤ openMax := hp' ▸ maxFd_procUpdateFdHint_le h
      rw [heq]
      cases cloexec with
      | false => exact hle
      | true => exact hle
  | close pid fd =>
    rw [Event.apply, close_fst, maxFd_closeFile]
    exact h
  | fork pid mem => exact h
  | execve pid => exact h

theorem AllWithin.next (h : AllWithin s) (he : Legal e) : AllWithin (next s e) := by
  unfold ProcessFiles.next
  cases hpr : s.procs e.pid with
  | none => exact h
  | some p =>
    have hp : p.maxFd ≤ openMax := h e.pid p hpr
    have hnw : ∀ {pid : ℕ} {q : Proc}, q.maxFd ≤ openMax →
        ∀ k r, Function.update s.procs pid (some q) k = some r → r.maxFd ≤ openMax := by
      intro pid q hq k r hr
      rcases eq_or_ne k pid with rfl | hne
      · obtain rfl : q = r := by simpa using hr
        exact hq
      · exact h k r (by simpa [Function.update_of_ne hne] using hr)
    cases e with
    | fork pid mem => exact hnw he
    | openat | pipe | dup3 | fcntlDup | close | execve => exact hnw (maxFd_apply_le hp _)

theorem allBounded_initial (stdfile : FilePtr) (path : Filedesc) :
    AllBounded (initial stdfile path) ∧ AllWithin (initial stdfile path) := by
  have hpr : ∀ pid p, (initial stdfile path).procs pid = some p → initProc stdfile path = p := by
    intro pid p hp
    simp only [initial] at hp
    split at hp
    · exact Option.some.inj hp
    · simp at hp
  constructor
  · intro pid p hp i hi hus
    obtain rfl := hpr pid p hp
    by_contra hge
    apply hus
    simp [initProc, Filedesc.zero, show ¬ i < 3 from hge, hi.ne]
  · intro pid p hp
    obtain rfl := hpr pid p hp
    exact (by decide : 3 ≤ openMax)

/-- Each run whose steps meet the condition keeps the bound, and no other step does. -/
theorem reached_bounded (stdfile : FilePtr) (path : Filedesc)
    (h : Reached KeepsBound (initial stdfile path) s) :
    (∀ pid p, s.procs pid = some p → Bounded p ∧ Complete p s.files) ∧
      ∀ e, AllBounded (next s e) ↔ KeepsBound s e := by
  have hiv : AllBounded s ∧ AllWithin s := by
    apply Runs.Reaches.invariant h fun s => AllBounded s ∧ AllWithin s
    · exact allBounded_initial stdfile path
    · intro s e s' hs he hn
      obtain rfl : next s e = s' := Option.some.inj hn
      exact ⟨(allBounded_next_iff hs.1 e).mpr he.2, hs.2.next he.1⟩
  refine ⟨fun pid p hp => ?_, fun e => allBounded_next_iff hiv.1 e⟩
  exact ⟨hiv.1 pid p hp, (hiv.1 pid p hp).complete (hiv.2 pid p hp) s.files⟩

theorem reached_bounded_openat :
    ∃ p, (next (initial 1 .zero) (.openat 1 AT_FDCWD none 7 0)).procs 1 = some p ∧
      InUse p.fd 3 ∧ Bounded p := by
  have hkp : KeepsBound (initial 1 .zero) (.openat 1 AT_FDCWD none 7 0) := by
    rintro p hp - - -
    obtain rfl : initProc 1 .zero = p := by simpa [initial, Event.pid] using hp
    exact .inr ⟨4, by decide, by decide, by decide⟩
  have hlg : Legal (.openat 1 AT_FDCWD none 7 0) := trivial
  have hrc : Reached KeepsBound (initial 1 .zero)
      (next (initial 1 .zero) (.openat 1 AT_FDCWD none 7 0)) :=
    .step .start ⟨hlg, hkp⟩ rfl
  exact ⟨_, rfl, by decide, ((reached_bounded 1 .zero hrc).1 1 _ rfl).1⟩

/-- A descriptor duplicated to 50 is above the bound, so that a child does not get it; and a child
in fresh memory has three descriptors and bound zero. -/
theorem descriptors_above_bound :
    (∃ p, (next (initial 1 .zero) (.dup3 1 0 50)).procs 1 = some p ∧ InUse p.fd 50 ∧ p.maxFd = 3 ∧ ∃
      c, (next (next (initial 1 .zero) (.dup3 1 0 50)) (.fork 1 ⟨fun _ => .zero, 0, 0⟩)).procs 2 =
      some c ∧ ¬ InUse c.fd 50) ∧
    ∃ c, (next (initial 1 .zero) (.fork 1 ⟨fun _ => .zero, 0, 0⟩)).procs 2 = some c ∧
      InUse c.fd 0 ∧ c.maxFd = 0 :=
  ⟨⟨_, rfl, by decide, rfl, _, rfl, by decide⟩, _, rfl, by decide, rfl⟩

end FileDescriptorBound
