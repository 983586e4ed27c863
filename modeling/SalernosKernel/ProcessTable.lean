import SalernosKernel.Config
import SalernosKernel.RadixTree
import SalernosKernel.Signals

/-! # The process table

`com/sys/proc.c`: processes by number, their groups and sessions. A process is known by its number
and a group by when it was made: no number is given twice and no such object is freed. -/
namespace ProcessTable

open RadixTree Signals

structure Process where
  parentPid : ℕ
  numChildren : ℕ
  numRef : ℕ
  procGroup : Option ℕ
  didExecve : Bool
  exitStatus : ℤ
  stopNotified : Bool
  signals : Proc

/-- Of a session only `sid` is read. -/
structure Group where
  pgid : ℕ
  session : Option ℕ
  procs : List ℕ

structure State where
  nextPid : ℕ
  proc : ℕ → Process
  processes : Tree ℕ 1
  procGroupMap : Tree ℕ 1
  group : ℕ → Group
  nextGroup : ℕ

@[simps nextPid processes procGroupMap group nextGroup]
def State.modify (s : State) (p : ℕ) (f : Process → Process) : State :=
  { s with proc := Function.update s.proc p (f (s.proc p)) }

@[simps nextPid proc processes procGroupMap nextGroup]
def State.modifyGroup (s : State) (g : ℕ) (f : Group → Group) : State :=
  { s with group := Function.update s.group g (f (s.group g)) }

def State.unlink (s : State) (g p : ℕ) : State :=
  s.modifyGroup g fun group => { group with procs := group.procs.erase p }

/-- A new group takes the session of the group its leader is in, if it is given none. No result is a
failed assertion, here and below. -/
def comSysProcNewGroup (s : State) (leader : ℕ) (session : Option ℕ) : Option (ℕ × State) :=
  let inherited := match session, (s.proc leader).procGroup with
    | none, some g => (s.group g).session
    | _, _ => session
  (kradixtreePutNolock s.procGroupMap leader s.nextGroup).map fun tree =>
    (s.nextGroup,
      { s with
        procGroupMap := tree
        group := Function.update s.group s.nextGroup ⟨leader, inherited, []⟩
        nextGroup := s.nextGroup + 1 })

def State.enter (s : State) (p g : ℕ) : State :=
  (s.modifyGroup g fun group => { group with procs := group.procs ++ [p] }).modify p
    fun proc => { proc with procGroup := some g }

def comSysProcJoinGroupNolock (s : State) (p g : ℕ) : Option State :=
  match (s.proc p).procGroup with
  | none => some (s.enter p g)
  | some old =>
    if (s.group old).session = none ∨ (s.group g).session = none then none
    else some ((s.unlink old p).enter p g)

def comSysProcGetGroupByPgid (s : State) (pgid : ℕ) : Option ℕ :=
  kradixtreeGetNolock s.procGroupMap pgid

/-- The leader is taken off its group here, and once more when it joins the new one. -/
def comSysProcNewSessionNolock (s : State) (leader : ℕ) : Option State :=
  let s := match (s.proc leader).procGroup with
    | none => s
    | some g => s.unlink g leader
  (comSysProcNewGroup s leader (some leader)).bind fun made =>
    comSysProcJoinGroupNolock made.2 leader made.1

def State.hold (s : State) (p : ℕ) : State :=
  s.modify p fun proc => { proc with numRef := proc.numRef + 1 }

def comSysProcHide (s : State) (p : ℕ) : Option State :=
  (kradixtreeRemoveNolock s.processes (p - 1)).map fun tree =>
    let s := { s with processes := tree }
    let s := match (s.proc p).procGroup with
      | none => s
      | some g => s.unlink g p
    s.modify p fun proc => { proc with procGroup := none }

def State.release (s : State) (p : ℕ) : Option State :=
  let s := s.modify p fun proc => { proc with numRef := proc.numRef - 1 }
  if (s.proc p).numRef = 0 then comSysProcHide s p else some s

def State.find (s : State) (pid : ℤ) : Option ℕ :=
  if pid > procMax ∨ pid < 1 then none else kradixtreeGetNolock s.processes (pid.toNat - 1)

def comSysProcGetByPid (s : State) (pid : ℤ) : Option ℕ × State :=
  match s.find pid with
  | none => (none, s)
  | some p => (some p, s.hold p)

def State.LiveChild (s : State) (p c : ℕ) : Prop :=
  (s.proc c).parentPid = p ∧ (s.proc c).signals.exited = false
  deriving Decidable

/-- `candidate` is not set before the tree is read: where nothing is found, round `i` looks at
`stale i`. -/
def State.candidate (s : State) (stale : ℕ → Option ℕ) (i : ℕ) : Option ℕ :=
  (kradixtreeGetNolock s.processes i).or (stale i)

def comSysProcGetArbitraryChild (s : State) (stale : ℕ → Option ℕ) (p : ℕ) : Option ℕ × State :=
  match (List.range (s.nextPid + 1)).findSome? fun i =>
    (s.candidate stale i).filter fun c => s.LiveChild p c with
  | none => (none, s)
  | some c => (some c, s.hold c)

def Process.new (parentPid : ℕ) (memory : Signal → Option Sigaction) : Process where
  parentPid := parentPid
  numChildren := 0
  numRef := 1
  procGroup := none
  didExecve := false
  exitStatus := 0
  stopNotified := false
  signals := ⟨[], 0, memory, none, false⟩

def comSysProcNew (s : State) (parentPid : ℕ)
    (memory : Signal → Option Sigaction) : Option (ℕ × State) :=
  if s.nextPid ≤ procMax then
    let pid := s.nextPid
    (kradixtreePutNolock s.processes (pid - 1) pid).bind fun tree =>
      let s := { s with
        nextPid := pid + 1
        processes := tree
        proc := Function.update s.proc pid (Process.new parentPid memory) }
      match comSysProcGetByPid s parentPid with
      | (none, s) => some (pid, s)
      | (some parent, s) =>
        let joined := match (s.proc parent).procGroup with
          | none => some s
          | some g => comSysProcJoinGroupNolock s pid g
        joined.bind fun s => (s.release parent).map fun s => (pid, s)
  else none

def State.addThread (s : State) (p : ℕ) : State :=
  (s.hold p).modify p fun proc => { proc with
    signals := { proc.signals with threads := proc.signals.threads ++ [⟨0, 0, .ready, .outside⟩] } }

/-- The memory and the files of the child are left out. -/
def comSysSyscallFork (s : State) (p : ℕ)
    (memory : Signal → Option Sigaction) : Option (ℕ × State) :=
  (comSysProcNew s p memory).map fun made =>
    let s := (made.2.addThread made.1).modify p fun proc =>
      { proc with numChildren := proc.numChildren + 1 }
    let inherited := (s.proc p).signals.sigaction
    (made.1, s.modify made.1 fun proc => { proc with
      signals := { proc.signals with
        sigaction := fun sig => (inherited sig).or (proc.signals.sigaction sig) } })

/-- `com_sys_sched_notify_all` where the only threads of these processes wait. -/
def State.notifyAll (s : State) (waiters : List ℕ) : State :=
  waiters.foldl (fun s w => s.modify w fun proc =>
    { proc with signals := proc.signals.modifyThread 0 Thread.notify }) s

abbrev State.send (s : State) (p : ℕ) (sig : Signal) : State :=
  s.modify p fun proc => { proc with signals := comIpcSignalSendToProc proc.signals sig }

/-- `com_ipc_signal_send_to_proc`. The reference it takes is never released. -/
def State.sendToPid (s : State) (pid : ℤ) (sig : Signal) : State :=
  match comSysProcGetByPid s pid with
  | (none, s) => s
  | (some p, s) => s.send p sig

/-- `com_sys_proc_exit` by the only thread of the process, which `com_sys_proc_terminate` removes
then; `waiters` are on `waitpid_waitlist`. -/
def comSysProcExit (s : State) (p : ℕ) (status : ℤ) (waiters : List ℕ) : State :=
  let s := s.modify p fun proc => { proc with
    exitStatus := status
    signals := { proc.signals with exited := true } }
  let s := (s.notifyAll waiters).sendToPid (s.proc p).parentPid SIGCHLD
  s.modify p fun proc => { proc with signals := { proc.signals with threads := [] } }

def State.empty : State where
  nextPid := 1
  proc _ := Process.new 0 fun _ => none
  processes := RadixTable.blank none 1
  procGroupMap := RadixTable.blank none 1
  group _ := ⟨0, none, []⟩
  nextGroup := 0

/-- The first process leads a session; what is done for its program is left out. -/
def comInitPid1 (memory : Signal → Option Sigaction) : Option State :=
  (comSysProcNew .empty 0 memory).bind fun made =>
    comSysProcNewSessionNolock (made.2.addThread made.1) made.1

section Update

variable {s : State} {p q g h : ℕ} {f : Process → Process} {k : Group → Group}

@[simp] theorem modify_proc : (s.modify p f).proc q = if q = p then f (s.proc p) else s.proc q := by
  simp [State.modify, Function.update_apply]

theorem modify_reads {β : Type*} (read : Process → β) (h : ∀ proc, read (f proc) = read proc) :
    read ((s.modify p f).proc q) = read (s.proc q) := by
  rw [modify_proc]
  split
  · next hq => rw [h, hq]
  · rfl

@[simp] theorem modifyGroup_group :
    (s.modifyGroup g k).group h = if h = g then k (s.group g) else s.group h := by
  simp [State.modifyGroup, Function.update_apply]

end Update

end ProcessTable
