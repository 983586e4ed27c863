import Mathlib.Data.Finset.Card
import SalernosKernel.Config
import SalernosKernel.Runs

/-! # File descriptors

The descriptor table of a process, the hint `next_fd` at its first free slot and the system calls
that fill and clear slots. The bound checks let index `CONFIG_OPEN_MAX` through; that slot is not
in the array but the start of `executable_path`, and is kept here as one more slot. -/
namespace FileDescriptors

open Runs

abbrev FilePtr := ℕ

structure Filedesc where
  file : Option FilePtr
  flags : ℕ
  deriving DecidableEq

def Filedesc.zero : Filedesc := ⟨none, 0⟩

abbrev Table := ℕ → Filedesc

structure Proc where
  fd : Table
  nextFd : ℕ
  maxFd : ℕ

def FD_CLOEXEC : ℕ := 1

def InUse (fd : Table) (i : ℕ) : Prop := (fd i).file ≠ none
  deriving Decidable

def skipOpen (fd : Table) (i : ℕ) : ℕ := i + runLength (InUse fd) (openMax - i) i

def hint (fd : Table) (i : ℕ) : ℕ :=
  if skipOpen fd i < openMax then skipOpen fd i else skipOpen fd 0

def procUpdateFdHint (p : Proc) : Proc :=
  { p with nextFd := hint p.fd p.nextFd, maxFd := max p.maxFd (hint p.fd p.nextFd) }

def Proc.advance (p : Proc) : Proc := procUpdateFdHint { p with nextFd := p.nextFd + 1 }

/-- No result is `-1`. -/
def comSysProcNextFd (p : Proc) : Option ℕ × Proc :=
  (if openMax ≤ p.nextFd then none else some p.nextFd, p.advance)

def Rejected (fd : ℤ) : Prop := fd < 0 ∨ fd > openMax
  deriving Decidable

def comSysProcGetFileNolock (p : Proc) (fd : ℤ) : Option FilePtr :=
  if Rejected fd then none else (p.fd fd.toNat).file

def Proc.copySlot (p : Proc) (target old : ℕ) : Proc :=
  { p with fd := Function.update p.fd target ⟨(p.fd old).file, 0⟩ }

def comSysProcDuplicateFileNolock (p : Proc) (newFd oldFd : ℤ) : Except Errno ℕ × Proc :=
  if Rejected oldFd ∨ Rejected newFd then (.error .EINVAL, p)
  else
    let target := skipOpen p.fd newFd.toNat
    -- The search ends at `CONFIG_OPEN_MAX` only after it has looked at that slot too.
    if InUse p.fd target then (.error .EMFILE, p)
    else (.ok target, procUpdateFdHint (p.copySlot target oldFd.toNat))

def Proc.recycle (p : Proc) (i : ℕ) : Proc :=
  { p with
    fd := Function.update p.fd i .zero
    nextFd := if i < p.nextFd then i else p.nextFd }

def comSysProcCloseFileNolock (p : Proc) (fd : ℤ) : Except Errno FilePtr × Proc :=
  if Rejected fd then (.error .EBADF, p)
  else
    match (p.fd fd.toNat).file with
    | none => (.error .EBADF, p)
    | some file => (.ok file, p.recycle fd.toNat)

def Proc.install (p : Proc) (i : ℕ) (file : FilePtr) : Proc :=
  { p with fd := Function.update p.fd i { p.fd i with file := some file } }

def Proc.setCloexec (p : Proc) (i : ℕ) : Proc :=
  let d := p.fd i
  { p with fd := Function.update p.fd i { d with flags := d.flags ||| FD_CLOEXEC } }

/-- `lookup` is the error with which the path was not opened, `file` the address of the new
file. -/
def comSysSyscallOpenat (p : Proc) (lookup : Option Errno) (file : FilePtr) :
    Except Errno ℕ × Proc :=
  match lookup with
  | some err => (.error err, p)
  | none =>
    match comSysProcNextFd p with
    | (none, p) => (.error .EMFILE, p)
    | (some fd, p) => (.ok fd, p.install fd file)

def comSysSyscallPipe (p : Proc) (rf wf : FilePtr) : Except Errno (ℕ × ℕ) × Proc :=
  let (rfd, p) := comSysProcNextFd p
  let (wfd, p) := comSysProcNextFd p
  match rfd, wfd with
  | some rfd, some wfd => (.ok (rfd, wfd), (p.install rfd rf).install wfd wf)
  | _, _ => (.error .EMFILE, p)

/-- What was in `newFd` is closed first, whatever becomes of the copy. -/
def comSysSyscallDup3 (p : Proc) (oldFd newFd : ℤ) : Except Errno ℕ × Proc :=
  let r := comSysProcDuplicateFileNolock (comSysProcCloseFileNolock p newFd).2 newFd oldFd
  (r.1.map fun _ => 0, r.2)

def comSysSyscallFcntlDup (p : Proc) (fd arg : ℤ) (cloexec : Bool) : Except Errno ℕ × Proc :=
  match comSysProcGetFileNolock p fd with
  | none => (.error .EBADF, p)
  | some _ =>
    match comSysProcDuplicateFileNolock p arg fd with
    | (.error err, p) => (.error err, p)
    | (.ok newFd, p) => (.ok newFd, if cloexec then p.setCloexec newFd else p)

def comSysSyscallClose (p : Proc) (fd : ℤ) : Except Errno Unit × Proc :=
  match comSysProcCloseFileNolock p fd with
  | (.error err, p) => (.error err, p)
  | (.ok _, p) => (.ok (), p)

variable {fd : Table} {i j t : ℕ} {p : Proc}

@[simp] theorem inUse_install {file : FilePtr} :
    InUse (p.install i file).fd j ↔ j = i ∨ InUse p.fd j := by
  by_cases h : j = i <;> simp [InUse, Proc.install, h]

@[simp] theorem inUse_copySlot : InUse (p.copySlot t i).fd j ↔
    if j = t then InUse p.fd i else InUse p.fd j := by
  by_cases h : j = t <;> simp [InUse, Proc.copySlot, h]

@[simp] theorem inUse_recycle : InUse (p.recycle i).fd j ↔ j ≠ i ∧ InUse p.fd j := by
  by_cases h : j = i <;> simp [InUse, Proc.recycle, Filedesc.zero, h]

@[simp] theorem inUse_setCloexec : InUse (p.setCloexec i).fd j ↔ InUse p.fd j := by
  by_cases h : j = i <;> simp [InUse, Proc.setCloexec, h]

@[simp] theorem advance_fd : p.advance.fd = p.fd := rfl

@[simp] theorem advance_nextFd : p.advance.nextFd = hint p.fd (p.nextFd + 1) := rfl

@[simp] theorem advance_maxFd : p.advance.maxFd = max p.maxFd (hint p.fd (p.nextFd + 1)) := rfl

@[simp] theorem install_nextFd {file : FilePtr} : (p.install i file).nextFd = p.nextFd := rfl

@[simp] theorem install_maxFd {file : FilePtr} : (p.install i file).maxFd = p.maxFd := rfl

theorem openat_full (h : openMax ≤ p.nextFd) (file : FilePtr) :
    comSysSyscallOpenat p none file = (.error .EMFILE, p.advance) := by
  simp [comSysSyscallOpenat, comSysProcNextFd, h]

theorem openat_ok (h : p.nextFd < openMax) (file : FilePtr) :
    comSysSyscallOpenat p none file = (.ok p.nextFd, p.advance.install p.nextFd file) := by
  simp [comSysSyscallOpenat, comSysProcNextFd, Nat.not_le_of_lt h]

theorem pipe_full (h : openMax ≤ p.nextFd ∨ openMax ≤ p.advance.nextFd) (rf wf : FilePtr) :
    comSysSyscallPipe p rf wf = (.error .EMFILE, p.advance.advance) := by
  unfold comSysSyscallPipe comSysProcNextFd
  rcases h with h | h
  · simp only [if_pos h]
  · simp only [if_pos h]
    by_cases hr : openMax ≤ p.nextFd
    · rw [if_pos hr]
    · rw [if_neg hr]

theorem pipe_ok (hr : p.nextFd < openMax) (hw : p.advance.nextFd < openMax) (rf wf : FilePtr) :
    comSysSyscallPipe p rf wf = (.ok (p.nextFd, p.advance.nextFd),
      (p.advance.advance.install p.nextFd rf).install p.advance.nextFd wf) := by
  unfold comSysSyscallPipe comSysProcNextFd
  simp only [if_neg (Nat.not_le_of_lt hr), if_neg (Nat.not_le_of_lt hw)]

theorem duplicate_cases (p : Proc) (newFd oldFd : ℤ) :
    (∃ err, comSysProcDuplicateFileNolock p newFd oldFd = (.error err, p) ∧
      (Rejected oldFd ∨ Rejected newFd ∨ InUse p.fd (skipOpen p.fd newFd.toNat))) ∨
      ¬ Rejected newFd ∧ ¬ Rejected oldFd ∧ ¬ InUse p.fd (skipOpen p.fd newFd.toNat) ∧
        comSysProcDuplicateFileNolock p newFd oldFd = (.ok (skipOpen p.fd newFd.toNat),
          procUpdateFdHint (p.copySlot (skipOpen p.fd newFd.toNat) oldFd.toNat)) := by
  unfold comSysProcDuplicateFileNolock
  by_cases hrj : Rejected oldFd ∨ Rejected newFd
  · exact .inl ⟨.EINVAL, if_pos hrj, by tauto⟩
  · rw [if_neg hrj]
    push Not at hrj
    by_cases hus : InUse p.fd (skipOpen p.fd newFd.toNat)
    · exact .inl ⟨.EMFILE, if_pos hus, .inr (.inr hus)⟩
    · exact .inr ⟨hrj.2, hrj.1, hus, if_neg hus⟩

theorem closeFile_cases (p : Proc) (fd : ℤ) :
    (∃ err, comSysProcCloseFileNolock p fd = (.error err, p) ∧
      (Rejected fd ∨ ¬ InUse p.fd fd.toNat)) ∨
      ∃ file, ¬ Rejected fd ∧ (p.fd fd.toNat).file = some file ∧
        comSysProcCloseFileNolock p fd = (.ok file, p.recycle fd.toNat) := by
  unfold comSysProcCloseFileNolock
  by_cases hrj : Rejected fd
  · exact .inl ⟨.EBADF, if_pos hrj, .inl hrj⟩
  · rw [if_neg hrj]
    cases hfl : (p.fd fd.toNat).file with
    | none => exact .inl ⟨.EBADF, rfl, .inr (by simp [InUse, hfl])⟩
    | some file => exact .inr ⟨file, hrj, rfl, rfl⟩

theorem close_snd (p : Proc) (fd : ℤ) :
    (comSysSyscallClose p fd).2 = (comSysProcCloseFileNolock p fd).2 := by
  unfold comSysSyscallClose
  split
  · rename_i heq
    rw [heq]
  · rename_i heq
    rw [heq]

theorem fcntlDup_cases (p : Proc) (fd arg : ℤ) (cloexec : Bool) :
    (∃ err, comSysSyscallFcntlDup p fd arg cloexec = (.error err, p) ∧ (Rejected fd ∨ ¬ InUse p.fd
      fd.toNat ∨ Rejected arg ∨ InUse p.fd (skipOpen p.fd arg.toNat))) ∨
      ¬ Rejected fd ∧ ¬ Rejected arg ∧ InUse p.fd fd.toNat ∧
        ∃ p', comSysProcDuplicateFileNolock p arg fd = (.ok (skipOpen p.fd arg.toNat), p') ∧
          p' = procUpdateFdHint (p.copySlot (skipOpen p.fd arg.toNat) fd.toNat) ∧
          comSysSyscallFcntlDup p fd arg cloexec = (.ok (skipOpen p.fd arg.toNat),
            if cloexec then p'.setCloexec (skipOpen p.fd arg.toNat) else p') := by
  unfold comSysSyscallFcntlDup
  cases hfl : comSysProcGetFileNolock p fd with
  | none =>
    refine .inl ⟨.EBADF, rfl, ?_⟩
    unfold comSysProcGetFileNolock at hfl
    split at hfl
    · exact .inl ‹_›
    · exact .inr (.inl (by simp [InUse, hfl]))
  | some file =>
    have hus : InUse p.fd fd.toNat := by
      unfold comSysProcGetFileNolock at hfl
      split at hfl
      · simp at hfl
      · simp [InUse, hfl]
    rcases duplicate_cases p arg fd with ⟨err, hdp, hwh⟩ | ⟨har, hfd, -, hdp⟩
    · rw [hdp]
      exact .inl ⟨err, rfl, by tauto⟩
    · rw [hdp]
      exact .inr ⟨hfd, har, hus, _, rfl, rfl, rfl⟩

theorem le_skipOpen (fd : Table) (i : ℕ) : i ≤ skipOpen fd i := Nat.le_add_right _ _

theorem skipOpen_le (h : i ≤ openMax) : skipOpen fd i ≤ openMax := by
  have hle : runLength (InUse fd) (openMax - i) i ≤ openMax - i := runLength_le
  unfold skipOpen
  omega

theorem inUse_of_lt_skipOpen (hij : i ≤ j) (hj : j < skipOpen fd i) : InUse fd j := by
  obtain ⟨d, rfl⟩ := Nat.exists_eq_add_of_le hij
  exact runLength_holds (Nat.lt_of_add_lt_add_left hj)

theorem not_inUse_skipOpen (h : skipOpen fd i < openMax) : ¬ InUse fd (skipOpen fd i) := by
  apply runLength_stops
  unfold skipOpen at h
  omega

theorem skipOpen_le_of_free (hij : i ≤ j) (hj : ¬ InUse fd j) : skipOpen fd i ≤ j := by
  by_contra hlt
  exact hj (inUse_of_lt_skipOpen hij (Nat.lt_of_not_le hlt))

theorem skipOpen_eq (hij : i ≤ j) (hj : j ≤ openMax) (hal : ∀ k, i ≤ k → k < j → InUse fd k)
    (hed : j < openMax → ¬ InUse fd j) : skipOpen fd i = j := by
  obtain ⟨d, rfl⟩ := Nat.exists_eq_add_of_le hij
  have hrn : runLength (InUse fd) (openMax - i) i = d := by
    apply runLength_unique
    · omega
    · intro k hk
      exact hal _ (Nat.le_add_right _ _) (Nat.add_lt_add_left hk i)
    · intro hd
      exact hed (by omega)
  rw [skipOpen, hrn]

theorem skipOpen_of_free (hi : i ≤ openMax) (hfr : ¬ InUse fd i) : skipOpen fd i = i :=
  skipOpen_eq le_rfl hi (fun _ hj hlt => absurd hlt (not_lt_of_ge hj)) fun _ => hfr

theorem toNat_le_of_not_rejected {n : ℤ} (h : ¬ Rejected n) : n.toNat ≤ openMax := by
  unfold Rejected at h
  omega

theorem hint_of_lt (h : skipOpen fd i < openMax) : hint fd i = skipOpen fd i := if_pos h

theorem hint_of_full (h : ∀ j, i ≤ j → j < openMax → InUse fd j) : hint fd i = skipOpen fd 0 := by
  apply if_neg
  intro hlt
  exact not_inUse_skipOpen hlt (h _ (le_skipOpen fd i) hlt)

theorem hint_le : hint fd i ≤ openMax := by
  unfold hint
  split
  · exact Nat.le_of_lt ‹_›
  · exact skipOpen_le (Nat.zero_le _)

theorem hint_free (h : hint fd i < openMax) : ¬ InUse fd (hint fd i) := by
  unfold hint at h ⊢
  split
  · exact not_inUse_skipOpen ‹_›
  · rw [if_neg ‹_›] at h
    exact not_inUse_skipOpen h

theorem hint_le_of_free (hij : i ≤ j) (hj : j < openMax) (hfr : ¬ InUse fd j) : hint fd i ≤ j := by
  have hle := skipOpen_le_of_free hij hfr
  rw [hint_of_lt (hle.trans_lt hj)]
  exact hle

theorem hint_eq_openMax (h : ∀ j < openMax, InUse fd j) (i : ℕ) : hint fd i = openMax := by
  by_contra hne
  have hlt := lt_of_le_of_ne hint_le hne
  exact hint_free hlt (h _ hlt)

theorem inUse_of_hint_eq (h : hint fd i = openMax) (hj : j < openMax) : InUse fd j := by
  unfold hint at h
  split at h
  · omega
  · exact inUse_of_lt_skipOpen (Nat.zero_le _) (h ▸ hj)

end FileDescriptors
