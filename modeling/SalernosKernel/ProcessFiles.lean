import Mathlib.Algebra.Order.Ring.Nat
import SalernosKernel.FileDescriptors

/-! # Files of processes

All processes with their descriptor tables and the open files they share. A file is kept while
descriptors refer to it; its memory can be read after it has been freed. -/
namespace ProcessFiles

open FileDescriptors
open Runs (foldl_range_invariant)
open Function

structure File where
  flags : ℕ
  numRef : ℕ
  freed : Bool
  deriving DecidableEq

abbrev Files := FilePtr → File

def hold (files : Files) : Option FilePtr → Files
  | none => files
  | some f =>
    let file := files f
    update files f { file with numRef := (file.numRef + 1) % 2 ^ 64 }

def release (files : Files) : Option FilePtr → Files
  | none => files
  | some f =>
    let file := files f
    let n := (file.numRef + (2 ^ 64 - 1)) % 2 ^ 64
    update files f { file with numRef := n, freed := file.freed || decide (n = 0) }

structure System where
  procs : ℕ → Option Proc
  nextPid : ℕ
  files : Files

def AT_FDCWD : ℤ := -100

def O_CLOEXEC : ℕ := 0x80000

def comSysProcGetDirectory (p : Proc) (dirFd : ℤ) : Except Errno (Option FilePtr) :=
  if dirFd = AT_FDCWD then .ok none
  else
    match comSysProcGetFileNolock p dirFd with
    | none => .error .EBADF
    | some f => .ok (some f)

def openat (p : Proc) (files : Files) (dirFd : ℤ) (lookup : Option Errno) (file : FilePtr)
    (flags : ℕ) : Proc × Files :=
  match comSysProcGetDirectory p dirFd with
  | .error _ => (p, files)
  | .ok dirFile =>
    let files := hold files dirFile
    match comSysSyscallOpenat p lookup file with
    | (.error _, p) => (p, release files dirFile)
    | (.ok _, p) => (p, release (update files file ⟨flags, 1, false⟩) dirFile)

def pipe (p : Proc) (files : Files) (rf wf : FilePtr) : Proc × Files :=
  match comSysSyscallPipe p rf wf with
  | (.error _, p) => (p, files)
  | (.ok _, p) =>
    (p, update (update files rf ⟨0, 1, false⟩) wf ⟨0, 1, false⟩)

/-- The new reference is taken before the old file of the slot is released. -/
def dup3 (p : Proc) (files : Files) (oldFd newFd : ℤ) : Proc × Files :=
  let file := (comSysProcCloseFileNolock p newFd).1.toOption
  match comSysProcDuplicateFileNolock (comSysProcCloseFileNolock p newFd).2 newFd oldFd with
  | (.error _, p) => (p, release files file)
  | (.ok i, p) => (p, release (hold files (p.fd i).file) file)

def fcntlDup (p : Proc) (files : Files) (fd arg : ℤ) (cloexec : Bool) : Proc × Files :=
  let file := comSysProcGetFileNolock p fd
  let files := hold files file
  match comSysSyscallFcntlDup p fd arg cloexec with
  | (.error _, p) => (p, release files file)
  | (.ok i, p) => (p, release (hold files (p.fd i).file) file)

def close (p : Proc) (files : Files) (fd : ℤ) : Proc × Files :=
  let file := (comSysProcCloseFileNolock p fd).1.toOption
  ((comSysSyscallClose p fd).2, release files file)

def forkRound (p : Proc) (acc : Table × Files) (i : ℕ) : Table × Files :=
  if InUse p.fd i then (update acc.1 i (p.fd i), hold acc.2 (p.fd i).file) else acc

/-- `mem` is what the memory of the new process held before: `com_sys_proc_new` clears neither
the table nor `max_fd`. -/
def fork (p : Proc) (files : Files) (mem : Proc) : Proc × Files :=
  let loop := (List.range p.maxFd).foldl (forkRound p) (mem.fd, files)
  (⟨loop.1, p.nextFd, mem.maxFd⟩, loop.2)

def isCloexec (files : Files) (d : Filedesc) : Bool :=
  match d.file with
  | none => false
  | some f => decide (d.flags &&& FD_CLOEXEC ≠ 0) || decide ((files f).flags &&& O_CLOEXEC ≠ 0)

def execveRound (acc : Table × Files) (i : ℕ) : Table × Files :=
  if isCloexec acc.2 (acc.1 i) then
    (update acc.1 i .zero, release acc.2 (acc.1 i).file)
  else acc

def execve (p : Proc) (files : Files) : Proc × Files :=
  let loop := (List.range p.maxFd).foldl execveRound (p.fd, files)
  ({ p with fd := loop.1 }, loop.2)

/-- One round of the loop of `com_sys_proc_exit`, with the files released so far. The macro clears
the pointer to a file it has freed. -/
def exitRound (acc : Table × Files × List FilePtr) (i : ℕ) : Table × Files × List FilePtr :=
  let d := acc.1 i
  match d.file with
  | none => acc
  | some f =>
    let files := release acc.2.1 (some f)
    (if (files f).numRef = 0 then update acc.1 i { d with file := none } else acc.1,
      files, acc.2.2 ++ [f])

def comSysProcExit (p : Proc) (files : Files) : Table × Files × List FilePtr :=
  (List.range p.maxFd).foldl exitRound (p.fd, files, [])

inductive Event where
  | openat (pid : ℕ) (dirFd : ℤ) (lookup : Option Errno) (file : FilePtr) (flags : ℕ)
  | pipe (pid : ℕ) (rf wf : FilePtr)
  | dup3 (pid : ℕ) (oldFd newFd : ℤ)
  | fcntlDup (pid : ℕ) (fd arg : ℤ) (cloexec : Bool)
  | close (pid : ℕ) (fd : ℤ)
  | fork (pid : ℕ) (mem : Proc)
  | execve (pid : ℕ)

def Event.pid : Event → ℕ
  | .openat pid .. | .pipe pid .. | .dup3 pid .. | .fcntlDup pid .. | .close pid .. | .fork pid ..
  | .execve pid => pid

def Event.apply (p : Proc) (files : Files) : Event → Proc × Files
  | .openat _ dirFd lookup file flags => ProcessFiles.openat p files dirFd lookup file flags
  | .pipe _ rf wf => ProcessFiles.pipe p files rf wf
  | .dup3 _ oldFd newFd => ProcessFiles.dup3 p files oldFd newFd
  | .fcntlDup _ fd arg cloexec => ProcessFiles.fcntlDup p files fd arg cloexec
  | .close _ fd => ProcessFiles.close p files fd
  | .fork _ mem => (p, (ProcessFiles.fork p files mem).2)
  | .execve _ => ProcessFiles.execve p files

def next (s : System) (e : Event) : System :=
  match s.procs e.pid with
  | none => s
  | some p =>
    let r := e.apply p s.files
    match e with
    | .fork _ mem =>
      ⟨update s.procs s.nextPid (some (fork p s.files mem).1), s.nextPid + 1, r.2⟩
    | _ => ⟨update s.procs e.pid (some r.1), s.nextPid, r.2⟩

/-- The first process: three descriptors for the terminal. Its memory is fresh, up to `path`, the
start of the name of the program. -/
def initProc (stdfile : FilePtr) (path : Filedesc) : Proc where
  fd i := if i < 3 then ⟨some stdfile, 0⟩ else if i = openMax then path else .zero
  nextFd := 3
  maxFd := 3

def initial (stdfile : FilePtr) (path : Filedesc) : System where
  procs pid := if pid = 1 then some (initProc stdfile path) else none
  nextPid := 2
  files f := if f = stdfile then ⟨0, 3, false⟩ else ⟨0, 0, true⟩

variable {p : Proc} {files : Files} {mem : Proc} {i : ℕ}

theorem openat_fst_error {dirFd : ℤ} {err : Errno} (h : comSysProcGetDirectory p dirFd = .error err)
    (lookup : Option Errno) (file : FilePtr) (flags : ℕ) :
    (openat p files dirFd lookup file flags).1 = p := by
  unfold openat
  rw [h]

theorem openat_fst_ok {dirFd : ℤ} {f : Option FilePtr} (h : comSysProcGetDirectory p dirFd = .ok f)
    (lookup : Option Errno) (file : FilePtr) (flags : ℕ) :
    (openat p files dirFd lookup file flags).1 = (comSysSyscallOpenat p lookup file).2 := by
  unfold openat
  rw [h]
  rcases comSysSyscallOpenat p lookup file with ⟨err | fd, q⟩ <;> rfl

theorem pipe_fst (rf wf : FilePtr) : (pipe p files rf wf).1 = (comSysSyscallPipe p rf wf).2 := by
  unfold pipe
  rcases comSysSyscallPipe p rf wf with ⟨err | fds, q⟩ <;> rfl

theorem dup3_fst (oldFd newFd : ℤ) :
    (dup3 p files oldFd newFd).1 = (comSysSyscallDup3 p oldFd newFd).2 := by
  unfold dup3 comSysSyscallDup3
  rcases comSysProcDuplicateFileNolock (comSysProcCloseFileNolock p newFd).2 newFd oldFd with
    ⟨err | fd, q⟩ <;> rfl

theorem fcntlDup_fst (fd arg : ℤ) (cloexec : Bool) :
    (fcntlDup p files fd arg cloexec).1 = (comSysSyscallFcntlDup p fd arg cloexec).2 := by
  unfold fcntlDup
  rcases comSysSyscallFcntlDup p fd arg cloexec with ⟨err | fd, q⟩ <;> rfl

theorem close_fst (fd : ℤ) : (close p files fd).1 = (comSysProcCloseFileNolock p fd).2 :=
  close_snd p fd

theorem release_flags (files : Files) (f : Option FilePtr) (g : FilePtr) :
    (release files f g).flags = (files g).flags := by
  cases f with
  | none => rfl
  | some f => by_cases h : g = f <;> simp [release, h]

theorem fork_fd : (fork p files mem).1.fd i =
    if i < p.maxFd ∧ InUse p.fd i then p.fd i else mem.fd i := by
  let I : ℕ → Table × Files → Prop := fun n acc =>
    acc.1 i = if i < n ∧ InUse p.fd i then p.fd i else mem.fd i
  refine foldl_range_invariant (f := forkRound p) I (by simp [I]) fun n acc hac => ?_
  simp only [I, forkRound] at hac ⊢
  by_cases hi : i = n
  · subst hi
    by_cases hus : InUse p.fd i
    · simp [hus]
    · simpa [hus] using hac
  · have hlt : i < n + 1 ↔ i < n := by omega
    simp only [hlt, ← hac]
    split
    · exact update_of_ne hi _ _
    · rfl

theorem isCloexec_congr {files' : Files} (h : ∀ f, (files' f).flags = (files f).flags)
    (d : Filedesc) : isCloexec files' d = isCloexec files d := by
  unfold isCloexec
  cases d.file with
  | none => rfl
  | some f => simp only [h f]

theorem execve_fd : (execve p files).1.fd i =
    if i < p.maxFd ∧ isCloexec files (p.fd i) then .zero else p.fd i := by
  -- A release leaves the flags of all files, so that each round decides as the first would.
  let I : ℕ → Table × Files → Prop := fun n acc =>
    (∀ f, (acc.2 f).flags = (files f).flags) ∧
      ∀ i, acc.1 i = if i < n ∧ isCloexec files (p.fd i) then .zero else p.fd i
  have hlp : I p.maxFd ((List.range p.maxFd).foldl execveRound (p.fd, files)) := by
    refine foldl_range_invariant I ⟨fun _ => rfl, by simp⟩ fun n acc hac => ?_
    obtain ⟨hfl, hfd⟩ := hac
    have hn : acc.1 n = p.fd n := by
      rw [hfd, if_neg fun h => absurd h.1 (lt_irrefl n)]
    unfold execveRound
    rw [isCloexec_congr hfl, hn]
    split_ifs with hcl
    · refine ⟨fun f => (release_flags _ _ f).trans (hfl f), fun i => ?_⟩
      by_cases hi : i = n
      · simp [hi, hcl]
      · have hlt : i < n + 1 ↔ i < n := by omega
        simp only [hlt, ← hfd i]
        exact update_of_ne hi _ _
    · refine ⟨hfl, fun i => ?_⟩
      by_cases hi : i = n
      · rw [hi, hn, if_neg fun h => hcl h.2]
      · have hlt : i < n + 1 ↔ i < n := by omega
        simp only [hlt]
        exact hfd i
  exact hlp.2 i

theorem exit_released : (comSysProcExit p files).2.2 =
    (List.range p.maxFd).filterMap fun i => (p.fd i).file := by
  let I : ℕ → Table × Files × List FilePtr → Prop := fun n acc =>
    (∀ i, n ≤ i → acc.1 i = p.fd i) ∧
      acc.2.2 = (List.range n).filterMap fun i => (p.fd i).file
  have hlp : I p.maxFd (comSysProcExit p files) := by
    refine foldl_range_invariant I ⟨fun _ _ => rfl, rfl⟩ fun n acc hac => ?_
    obtain ⟨hrs, hls⟩ := hac
    unfold exitRound
    rw [hrs n le_rfl]
    simp only [I, List.range_succ, List.filterMap_append, List.filterMap_cons, List.filterMap_nil]
    cases hfi : (p.fd n).file with
    | none => exact ⟨fun i hi => hrs i (Nat.le_of_succ_le hi), by simp [hls]⟩
    | some f =>
      refine ⟨fun i hi => ?_, by simp [hls]⟩
      dsimp only
      split
      · rw [update_of_ne (Nat.ne_of_gt hi)]
        exact hrs i (Nat.le_of_succ_le hi)
      · exact hrs i (Nat.le_of_succ_le hi)
  exact hlp.2

end ProcessFiles
