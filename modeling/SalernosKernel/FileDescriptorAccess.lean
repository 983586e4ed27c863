import SalernosKernel.FileDescriptorDup

/-! # Accesses to the descriptor table

The indices at which system calls read and write `proc->fd`. -/
namespace FileDescriptorAccess

open FileDescriptors FileDescriptorDup ProcessFiles List

inductive FcntlOp where
  | getfl
  | getfd
  | setfl
  | setfd
  | dupfd
  | dupfdCloexec
  | getpipeSz
  | unknown
  deriving DecidableEq

inductive Call where
  | close (fd : ℤ)
  | dup3 (oldFd newFd : ℤ)
  | fcntl (fd : ℤ) (op : FcntlOp) (arg : ℤ)
  | getFile (fd : ℤ)
  deriving DecidableEq

/-- `com_sys_proc_get_fildesc_nolock`, `com_sys_proc_get_file_nolock` and
`com_sys_proc_close_file_nolock` go to the slot they are given. -/
def slotAccesses (fd : ℤ) : List ℕ := if Rejected fd then [] else [fd.toNat]

/-- The search loop of `com_sys_proc_duplicate_file_nolock` round by round, with the indices its
condition reads. -/
def search (fd : Table) : ℕ → ℕ → Except Errno ℕ × List ℕ
  | 0, _ => (.error .EMFILE, [])
  | rounds + 1, i =>
    if InUse fd i then
      if openMax ≤ i then (.error .EMFILE, [i])
      else
        let rest := search fd rounds (i + 1)
        (rest.1, i :: rest.2)
    else (.ok i, [i])

def duplicateAccesses (p : Proc) (newFd oldFd : ℤ) : List ℕ :=
  if Rejected oldFd ∨ Rejected newFd then []
  else
    let found := search p.fd (openMax + 1) newFd.toNat
    match found.1 with
    | .error _ => found.2
    | .ok target => found.2 ++ [target, oldFd.toNat]

def fcntlDupAccesses (p : Proc) (fd : ℤ) (cloexec : Bool) (arg : ℤ) : List ℕ :=
  duplicateAccesses p arg fd ++
    match (comSysProcDuplicateFileNolock p arg fd).1, cloexec with
    | .ok newFd, true => slotAccesses newFd
    | _, _ => []

def accesses (p : Proc) : Call → List ℕ
  | .close fd => slotAccesses fd
  | .getFile fd => slotAccesses fd
  | .dup3 oldFd newFd =>
    slotAccesses newFd ++ duplicateAccesses (comSysProcCloseFileNolock p newFd).2 newFd oldFd
  | .fcntl fd op arg =>
    slotAccesses fd ++ slotAccesses fd ++
      match comSysProcGetFileNolock p fd, op with
      | some _, .dupfd => fcntlDupAccesses p fd false arg
      | some _, .dupfdCloexec => fcntlDupAccesses p fd true arg
      | _, _ => []

def returned (p : Proc) : Call → Option ℕ
  | .fcntl fd .dupfd arg => (comSysSyscallFcntlDup p fd arg false).1.toOption
  | .fcntl fd .dupfdCloexec arg => (comSysSyscallFcntlDup p fd arg true).1.toOption
  | _ => none

def Inside (indices : List ℕ) : Prop := ∀ i ∈ indices, i < openMax

def InBounds (p : Proc) (c : Call) : Prop :=
  Inside (accesses p c) ∧ Inside (returned p c).toList

def IsDup (op : FcntlOp) : Prop := op = .dupfd ∨ op = .dupfdCloexec

def Safe (p : Proc) : Call → Prop
  | .close fd | .getFile fd => fd ≠ openMax
  | .dup3 oldFd newFd => newFd ≠ openMax ∧ (oldFd = openMax → Rejected newFd)
  | .fcntl fd op arg => fd ≠ openMax ∧ (IsDup op → Opened p fd → ¬ Rejected arg →
      ∃ i, arg.toNat ≤ i ∧ i < openMax ∧ ¬ InUse p.fd i)

variable {p : Proc} {i : ℕ} {oldFd newFd n : ℤ}

theorem search_eq (fd : Table) (rounds : ℕ) (hi : i ≤ openMax) (hrn : openMax < rounds + i) :
    search fd rounds i = (if InUse fd (skipOpen fd i) then .error .EMFILE else .ok (skipOpen fd i),
      range' i (skipOpen fd i - i + 1)) := by
  induction rounds generalizing i with
  | zero => omega
  | succ rounds ih =>
    by_cases hus : InUse fd i
    · rcases Nat.lt_or_ge i openMax with hlt | hge
      · have hnx : skipOpen fd i = skipOpen fd (i + 1) := by
          apply skipOpen_eq ((Nat.le_succ i).trans (le_skipOpen _ _)) (skipOpen_le hlt)
          · intro k hik hk
            rcases Nat.eq_or_lt_of_le hik with rfl | hik
            · exact hus
            · exact inUse_of_lt_skipOpen hik hk
          · exact not_inUse_skipOpen
        have hle : i + 1 ≤ skipOpen fd (i + 1) := le_skipOpen _ _
        have hln : skipOpen fd (i + 1) - i + 1 = skipOpen fd (i + 1) - (i + 1) + 1 + 1 := by omega
        simp only [search, hus, if_true, Nat.not_le_of_lt hlt, if_false, ih hlt (by omega), hnx,
          hln]
        rfl
      · have heq : i = openMax := le_antisymm hi hge
        have hsk : skipOpen fd i = i :=
          skipOpen_eq le_rfl hi (fun k hk hk' => absurd hk' (Nat.not_lt_of_ge hk))
            fun hlt => absurd heq hlt.ne
        simp [search, hus, hge, hsk]
    · simp [search, hus, skipOpen_of_free hi hus]

@[simp] theorem inside_nil : Inside [] := forall_mem_nil _

@[simp] theorem inside_append {l l' : List ℕ} : Inside (l ++ l') ↔ Inside l ∧ Inside l' :=
  forall_mem_append

@[simp] theorem inside_singleton : Inside [i] ↔ i < openMax := forall_mem_singleton

theorem le_of_not_rejected (h : ¬ Rejected n) : 0 ≤ n ∧ n ≤ openMax := by
  unfold Rejected at h
  omega

@[simp] theorem slotAccesses_iff : Inside (slotAccesses n) ↔ n ≠ openMax := by
  unfold slotAccesses
  by_cases h : Rejected n
  · have hne : n ≠ openMax := by
      rintro rfl
      exact absurd h (by simp [Rejected])
    simp [h, hne]
  · have hn := le_of_not_rejected h
    simp only [h, if_false, inside_singleton]
    omega

theorem duplicateAccesses_iff (hold : ¬ Rejected oldFd) (hnw : ¬ Rejected newFd) :
    Inside (duplicateAccesses p newFd oldFd) ↔
      oldFd ≠ openMax ∧ skipOpen p.fd newFd.toNat < openMax := by
  have hbn := le_of_not_rejected hold
  have hsr := search_eq p.fd (openMax + 1) (toNat_le_of_not_rejected hnw) (by omega)
  have hle := le_skipOpen p.fd newFd.toNat
  simp only [duplicateAccesses, hold, hnw, or_self, if_false, hsr]
  constructor
  · intro hal
    have hme : skipOpen p.fd newFd.toNat ∈
        range' newFd.toNat (skipOpen p.fd newFd.toNat - newFd.toNat + 1) :=
      mem_range'_1.2 ⟨hle, by omega⟩
    have hlt : skipOpen p.fd newFd.toNat < openMax := by
      apply hal
      split <;> simp [hme]
    have hol : oldFd.toNat < openMax := by
      apply hal
      simp [not_inUse_skipOpen hlt]
    exact ⟨by omega, hlt⟩
  · rintro ⟨hne, hlt⟩ i hi
    simp only [not_inUse_skipOpen hlt, if_false, mem_append, mem_range'_1, mem_cons,
      not_mem_nil, or_false] at hi
    omega

theorem duplicateAccesses_rejected (h : Rejected oldFd ∨ Rejected newFd) :
    duplicateAccesses p newFd oldFd = [] :=
  if_pos h

theorem skipOpen_lt_iff (fd : Table) (i : ℕ) :
    skipOpen fd i < openMax ↔ ∃ j, i ≤ j ∧ j < openMax ∧ ¬ InUse fd j := by
  constructor
  · intro h
    exact ⟨skipOpen fd i, le_skipOpen fd i, h, not_inUse_skipOpen h⟩
  · rintro ⟨j, hij, hj, hfr⟩
    exact (skipOpen_le_of_free hij hfr).trans_lt hj

theorem getFile_isSome (h : n ≠ openMax) : (comSysProcGetFileNolock p n).isSome ↔ Opened p n := by
  unfold comSysProcGetFileNolock Opened InUse
  by_cases hrj : Rejected n
  · have hou : ¬ InTable n := fun hin => not_rejected_of_inTable hin hrj
    simp [hrj, hou]
  · have hin : InTable n := (inTable_or_eq hrj).resolve_right h
    simp [hrj, hin, Option.isSome_iff_ne_none]

theorem dup3_inBounds_iff : InBounds p (.dup3 oldFd newFd) ↔ Safe p (.dup3 oldFd newFd) := by
  simp only [InBounds, accesses, returned, Option.toList_none, inside_append, slotAccesses_iff,
    inside_nil, and_true]
  apply and_congr_right
  intro hne
  by_cases hrj : Rejected oldFd ∨ Rejected newFd
  · rw [duplicateAccesses_rejected hrj]
    refine iff_of_true inside_nil ?_
    rintro rfl
    exact hrj.resolve_left (by simp [Rejected])
  · push Not at hrj
    have hfr : ¬ InUse (comSysProcCloseFileNolock p newFd).2.fd newFd.toNat := by
      simpa [InUse] using closeFile_free hrj.2
    have hsk := skipOpen_of_free (toNat_le_of_not_rejected hrj.2) hfr
    have hlt := toNat_lt_of_inTable ((inTable_or_eq hrj.2).resolve_right hne)
    simp [duplicateAccesses_iff hrj.1 hrj.2, hsk, hlt, hrj.2]

theorem fcntlDup_inside_iff (hop : Opened p n) (cloexec : Bool) (arg : ℤ) :
    Inside (fcntlDupAccesses p n cloexec arg) ∧
      Inside (comSysSyscallFcntlDup p n arg cloexec).1.toOption.toList ↔
      (¬ Rejected arg → ∃ i, arg.toNat ≤ i ∧ i < openMax ∧ ¬ InUse p.fd i) := by
  have hn := not_rejected_of_inTable hop.1
  have hne : n ≠ openMax := hop.1.2.ne
  have hfl : (comSysProcGetFileNolock p n).isSome := (getFile_isSome hne).2 hop
  obtain ⟨file, hfl⟩ := Option.isSome_iff_exists.1 hfl
  rw [← skipOpen_lt_iff]
  by_cases har : Rejected arg
  · have hdp : comSysProcDuplicateFileNolock p arg n = (.error .EINVAL, p) := if_pos (.inr har)
    simp [fcntlDupAccesses, comSysSyscallFcntlDup, duplicateAccesses_rejected (.inr har), hfl,
      hdp, har, Except.toOption]
  · simp only [fcntlDupAccesses, inside_append, duplicateAccesses_iff hn har]
    constructor
    · intro h _
      exact h.1.1.2
    · intro h
      have hlt := h har
      have hfr := not_inUse_skipOpen hlt
      rcases duplicate_cases p arg n with ⟨-, -, hwh⟩ | ⟨-, -, -, hdp⟩
      · tauto
      · have hbl : (skipOpen p.fd arg.toNat : ℤ) ≠ openMax := by omega
        cases cloexec <;> simp [comSysSyscallFcntlDup, hfl, hdp, hne, hlt, Except.toOption, hbl]

/-- Every access of a call is inside the table exactly for these arguments. -/
theorem inBounds_iff (p : Proc) (c : Call) : InBounds p c ↔ Safe p c := by
  cases c with
  | close fd | getFile fd => simp [InBounds, accesses, returned, Safe]
  | dup3 oldFd newFd => exact dup3_inBounds_iff
  | fcntl fd op arg =>
    simp only [InBounds, accesses, inside_append, slotAccesses_iff, and_self, and_assoc, Safe]
    apply and_congr_right
    intro hne
    by_cases hop : Opened p fd
    · obtain ⟨file, hfl⟩ := Option.isSome_iff_exists.1 ((getFile_isSome hne).2 hop)
      cases op <;> simp only [hfl, IsDup, returned, fcntlDup_inside_iff hop] <;> simp [hop]
    · have hfl : comSysProcGetFileNolock p fd = none := by
        simpa [← getFile_isSome hne] using hop
      cases op <;> simp [hfl, hop, returned, comSysSyscallFcntlDup, Except.toOption]

theorem inBounds_dup3_sample : InBounds (initProc 1 .zero) (.dup3 0 5) ∧
    accesses (initProc 1 .zero) (.dup3 0 5) = [5, 5, 5, 0] :=
  ⟨(inBounds_iff _ _).mpr ⟨by decide, by decide⟩, by decide⟩

/-- Index 96 passes every check; `fcntl` even returns it if no slot from its argument on is
free. -/
theorem index_past_table : accesses (initProc 1 .zero) (.close 96) = [96] ∧
      accesses (initProc 1 .zero) (.getFile 96) = [96] ∧
      accesses (initProc 1 .zero) (.dup3 96 5) = [5, 5, 5, 96] ∧
      accesses (initProc 1 .zero) (.fcntl 0 .dupfd 96) = [0, 0, 96, 96, 0] ∧
      returned (initProc 1 .zero) (.fcntl 0 .dupfd 96) = some 96 :=
  ⟨by decide, by decide, by decide, by decide, by decide⟩

end FileDescriptorAccess
