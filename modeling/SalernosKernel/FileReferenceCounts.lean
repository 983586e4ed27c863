import SalernosKernel.FileReferences

/-! # Exact reference counts

All processes and their files over every sequence of calls: `num_ref` of a file is the number of
descriptors of live processes that refer to it. -/
namespace FileReferenceCounts

open FileDescriptors ProcessFiles FileDescriptorAccess FileReferences
open FileDescriptorBound (Bounded maxFd_apply_le)
open References Option Finset
open Function
open Multiset (card)

inductive Operation where
  | openat (dirFd : ℤ) (lookup : Option Errno) (file : FilePtr) (flags : ℕ)
  | pipe (rf wf : FilePtr)
  | dup3 (oldFd newFd : ℤ)
  | fcntl (fd : ℤ) (op : FcntlOp) (arg : ℤ)
  | close (fd : ℤ)
  | poll (timeout : Timeout) (fds : List ℤ) (pollHead : FilePtr → Bool)
  | fork (mem : Proc)
  | execve (path : Filedesc)
  | exit

structure Event where
  pid : ℕ
  op : Operation

def Operation.apply (p : Proc) (files : Files) : Operation → Option Proc × Files
  | .openat dirFd lookup file flags =>
    let r := ProcessFiles.openat p files dirFd lookup file flags
    (some r.1, r.2)
  | .pipe rf wf =>
    let r := ProcessFiles.pipe p files rf wf
    (some r.1, r.2)
  | .dup3 oldFd newFd =>
    let r := ProcessFiles.dup3 p files oldFd newFd
    (some r.1, r.2)
  | .fcntl fd op arg =>
    let r := FileReferences.fcntl p files fd op arg
    (some r.1, r.2)
  | .close fd =>
    let r := ProcessFiles.close p files fd
    (some r.1, r.2)
  | .poll timeout fds pollHead => (some p, FileReferences.poll p files timeout fds pollHead)
  | .fork mem => (some p, (ProcessFiles.fork p files mem).2)
  | .execve path =>
    let r := FileReferences.execve p files path
    (some r.1, r.2)
  | .exit => (none, (comSysProcExit p files).2.1)

def next (s : System) (e : Event) : System :=
  match s.procs e.pid with
  | none => s
  | some p =>
    let r := e.op.apply p s.files
    match e.op with
    | .fork mem =>
      ⟨update s.procs s.nextPid (some (fork p s.files mem).1), s.nextPid + 1, r.2⟩
    | _ => ⟨update s.procs e.pid r.1, s.nextPid, r.2⟩

def procRefs : Option Proc → Multiset FilePtr
  | none => 0
  | some p => tableRefs p.fd

def refs (s : System) : Multiset FilePtr := ∑ pid ∈ range s.nextPid, procRefs (s.procs pid)

def Exact (s : System) : Prop := FileCounts s.files (refs s)

/-- New files are put in memory that holds no file; the array of `poll` lies in memory; no
assertion of `com_sys_proc_new` fails, and `max_fd` left in its memory is one. -/
def Legal (s : System) : Operation → Prop
  | .openat _ _ file _ => (s.files file).freed
  | .pipe rf wf => (s.files rf).freed ∧ (s.files wf).freed ∧ wf ≠ rf
  | .poll _ fds _ => fds.length < 2 ^ 61
  | .fork mem => s.nextPid ≤ procMax ∧ mem.maxFd ≤ openMax
  | _ => True

def InsideTable (p : Proc) : Operation → Prop
  | .openat dirFd _ _ _ => dirFd ≠ openMax
  | .dup3 oldFd newFd => Safe p (.dup3 oldFd newFd)
  | .fcntl fd op arg => Safe p (.fcntl fd op arg)
  | .close fd => Safe p (.close fd)
  | .poll _ fds _ => ∀ fd ∈ fds, fd ≠ openMax
  | _ => True

/-- Calls that give back what they take. -/
def Balanced (p : Proc) : Operation → Prop
  | .openat dirFd lookup _ _ => (∃ f, comSysProcGetDirectory p dirFd = .ok f) → lookup = none →
      p.nextFd < openMax → ¬ InUse p.fd p.nextFd
  | .pipe .. => p.nextFd < openMax → (∃ i < openMax, ¬ InUse p.fd i) →
      ¬ InUse p.fd p.nextFd ∧ ∃ i < openMax, i ≠ p.nextFd ∧ ¬ InUse p.fd i
  | .poll timeout fds pollHead => ¬ timeout.Invalid →
      ∀ fd ∈ fds, ∀ f, comSysProcGetFileNolock p fd = some f → pollHead f
  | .fork mem => ∀ i < openMax, InUse mem.fd i → i < p.maxFd ∧ InUse p.fd i
  | .exit => Bounded p
  | _ => True

def Allowed (s : System) (e : Event) : Prop :=
  Legal s e.op ∧ ∀ p, s.procs e.pid = some p → InsideTable p e.op

def Reached (s₀ : System) : System → Prop :=
  Runs.Reaches (fun s e => some (next s e))
    (fun s e => Allowed s e ∧ ∀ p, s.procs e.pid = some p → Balanced p e.op) s₀

structure WellFormed (s : System) : Prop where
  pid_lt : ∀ pid p, s.procs pid = some p → pid < s.nextPid
  maxFd_le : ∀ pid p, s.procs pid = some p → p.maxFd ≤ openMax
  nextPid_le : s.nextPid ≤ procMax + 1

variable {s : System} {p : Proc} {pid : ℕ} {files : Files} {op : Operation} {e : Event}

theorem next_fork {mem : Proc} (hp : s.procs e.pid = some p) (hop : e.op = .fork mem) :
    next s e = ⟨update s.procs s.nextPid (some (fork p s.files mem).1), s.nextPid + 1,
      (fork p s.files mem).2⟩ := by
  simp only [next, hp, hop, Operation.apply]

theorem next_other (hp : s.procs e.pid = some p) (hop : ∀ mem, e.op ≠ .fork mem) :
    next s e = ⟨update s.procs e.pid (e.op.apply p s.files).1, s.nextPid,
      (e.op.apply p s.files).2⟩ := by
  unfold next
  rw [hp]
  cases hcs : e.op with
  | fork mem => exact absurd hcs (hop mem)
  | openat | pipe | dup3 | fcntl | close | poll | execve | exit => rfl

theorem refs_split (hw : WellFormed s) (hp : s.procs pid = some p) :
    ∃ R, refs s = R + tableRefs p.fd ∧ ∀ (o : Option Proc) (files : Files),
      refs ⟨update s.procs pid o, s.nextPid, files⟩ = R + procRefs o := by
  obtain ⟨R, hR, hot⟩ := exists_sum_eq_add (mem_range.mpr (hw.pid_lt pid p hp))
    fun pid => procRefs (s.procs pid)
  rw [hp] at hR
  refine ⟨R, hR, fun o files => ?_⟩
  have hnw := hot (fun x => procRefs (update s.procs pid o x))
    fun x hx => by rw [update_of_ne hx]
  rwa [update_self] at hnw

theorem card_procRefs_le (o : Option Proc) : card (procRefs o) ≤ openMax := by
  cases o with
  | none => exact Nat.zero_le _
  | some p => exact card_tableRefs_le p.fd

theorem card_refs_le (hw : WellFormed s) : card (refs s) ≤ (procMax + 1) * openMax := by
  unfold refs
  rw [Multiset.card_sum]
  calc ∑ pid ∈ range s.nextPid, card (procRefs (s.procs pid))
      ≤ s.nextPid * openMax := by
        simpa using sum_le_card_nsmul (range s.nextPid) _ openMax
          fun pid _ => card_procRefs_le (s.procs pid)
    _ ≤ (procMax + 1) * openMax := Nat.mul_le_mul_right _ hw.nextPid_le

theorem apply_counts_iff {R : Multiset FilePtr} (h : FileCounts s.files (R + tableRefs p.fd))
    (hrm : card R + 2 ^ 61 + 2 * openMax < limit) (hmx : p.maxFd ≤ openMax)
    (hlg : Legal s op) (hin : InsideTable p op) (hfr : ∀ mem, op ≠ .fork mem) :
    FileCounts (op.apply p s.files).2 (R + procRefs (op.apply p s.files).1) ↔ Balanced p op := by
  have hon : card R + openMax + 1 < limit := by omega
  have hcr : card R + openMax < limit := Nat.lt_of_succ_lt hon
  cases op with
  | openat dirFd lookup file flags => exact openat_counts_iff h hon hin lookup hlg flags
  | pipe rf wf => exact pipe_counts_iff h hlg.1 hlg.2.1 hlg.2.2
  | dup3 oldFd newFd => exact iff_of_true (dup3_counts h hon hin.1 hin.2) trivial
  | fcntl fd op arg => exact iff_of_true (fcntl_counts h hon hin) trivial
  | close fd => exact iff_of_true (close_counts h hon hin) trivial
  | poll timeout fds pollHead =>
    have hln : fds.length < 2 ^ 61 := hlg
    exact poll_counts_iff h (by omega) hin timeout
  | fork mem => exact absurd rfl (hfr mem)
  | execve path => exact iff_of_true (execve_counts h hcr hmx path) trivial
  | exit =>
    simp only [Operation.apply, procRefs, add_zero, Balanced]
    exact exit_counts_iff h hcr hmx

theorem refs_fork (s : System) (child : Proc) (files : Files) :
    refs ⟨update s.procs s.nextPid (some child), s.nextPid + 1, files⟩ =
      refs s + tableRefs child.fd := by
  simp only [refs, sum_range_succ, update_self, procRefs]
  congr 1
  apply sum_congr rfl
  intro pid hpid
  rw [update_of_ne (mem_range.mp hpid).ne]

theorem exact_next_iff (hw : WellFormed s) (h : Exact s) (he : Allowed s e) :
    Exact (next s e) ↔ ∀ p, s.procs e.pid = some p → Balanced p e.op := by
  cases hpr : s.procs e.pid with
  | none =>
    simp only [next, hpr]
    exact iff_of_true h fun p hp => absurd hp (by simp)
  | some p =>
    obtain ⟨R, hR, hot⟩ := refs_split hw hpr
    have hct : FileCounts s.files (R + tableRefs p.fd) := hR ▸ h
    have hmx := hw.maxFd_le _ _ hpr
    have hrm : card R + 2 ^ 61 + 2 * openMax < limit := by
      have hle := (Multiset.card_le_card (hR ▸ Multiset.le_add_right R _)).trans (card_refs_le hw)
      unfold procMax openMax limit at *
      omega
    simp only [some.injEq, forall_eq']
    by_cases hfr : ∃ mem, e.op = .fork mem
    · obtain ⟨mem, hme⟩ := hfr
      rw [next_fork hpr hme, Exact, refs_fork, hR, hme]
      exact fork_counts_iff hct (by omega) hmx mem
    · push Not at hfr
      rw [next_other hpr hfr, Exact, hot]
      exact apply_counts_iff hct hrm hmx he.1 (he.2 p hpr) hfr

theorem maxFd_apply_op_le {q : Proc} (h : p.maxFd ≤ openMax)
    (hq : (op.apply p files).1 = some q) : q.maxFd ≤ openMax := by
  cases op with
  | openat dirFd lookup file flags =>
    cases hq
    exact maxFd_apply_le h (.openat 0 dirFd lookup file flags)
  | pipe rf wf =>
    cases hq
    exact maxFd_apply_le h (.pipe 0 rf wf)
  | dup3 oldFd newFd =>
    cases hq
    exact maxFd_apply_le h (.dup3 0 oldFd newFd)
  | fcntl fd op arg =>
    cases hq
    unfold fcntl
    cases comSysProcGetFileNolock p fd with
    | none => exact h
    | some f =>
      cases op with
      | dupfd => exact maxFd_apply_le h (.fcntlDup 0 fd arg false)
      | dupfdCloexec => exact maxFd_apply_le h (.fcntlDup 0 fd arg true)
      | getfl | getfd | setfl | setfd | getpipeSz | unknown => exact h
  | close fd =>
    cases hq
    exact maxFd_apply_le h (.close 0 fd)
  | poll timeout fds pollHead | fork mem | execve path =>
    cases hq
    exact h
  | exit => cases hq

theorem update_eq_some {procs : ℕ → Option Proc} {o : Option Proc} {a b : ℕ} {q : Proc}
    (h : update procs a o b = some q) : b = a ∧ o = some q ∨ procs b = some q := by
  by_cases hb : b = a
  · subst hb
    exact .inl ⟨rfl, by simpa using h⟩
  · exact .inr (by simpa [hb] using h)

theorem WellFormed.next (hw : WellFormed s) (he : Legal s e.op) : WellFormed (next s e) := by
  cases hpr : s.procs e.pid with
  | none =>
    simp only [FileReferenceCounts.next, hpr]
    exact hw
  | some p =>
    have hmx := hw.maxFd_le _ _ hpr
    by_cases hfr : ∃ mem, e.op = .fork mem
    · obtain ⟨mem, hme⟩ := hfr
      rw [hme] at he
      rw [next_fork hpr hme]
      constructor
      · intro pid q hq
        rcases update_eq_some hq with ⟨rfl, -⟩ | hold
        · exact Nat.lt_succ_self _
        · exact Nat.lt_succ_of_lt (hw.pid_lt pid q hold)
      · intro pid q hq
        rcases update_eq_some hq with ⟨-, hch⟩ | hold
        · obtain rfl := some.inj hch
          exact he.2
        · exact hw.maxFd_le pid q hold
      · exact Nat.succ_le_succ he.1
    · push Not at hfr
      rw [next_other hpr hfr]
      constructor
      · intro pid q hq
        rcases update_eq_some hq with ⟨rfl, -⟩ | hold
        · exact hw.pid_lt e.pid p hpr
        · exact hw.pid_lt pid q hold
      · intro pid q hq
        rcases update_eq_some hq with ⟨-, hq⟩ | hold
        · exact maxFd_apply_op_le hmx hq
        · exact hw.maxFd_le pid q hold
      · exact hw.nextPid_le

theorem tableRefs_initProc (stdfile : FilePtr) (path : Filedesc) :
    tableRefs (initProc stdfile path).fd = Multiset.replicate 3 stdfile := by
  have hrs : ∀ i ∈ range openMax, i ∉ range 3 →
      ofOption ((initProc stdfile path).fd i).file = 0 := by
    intro i hi h3
    rw [mem_range] at hi h3
    simp [initProc, h3, hi.ne, Filedesc.zero]
  unfold tableRefs
  rw [← sum_subset (range_subset_range.mpr (by decide)) hrs]
  rfl

theorem exact_initial (stdfile : FilePtr) (path : Filedesc) :
    WellFormed (initial stdfile path) ∧ Exact (initial stdfile path) := by
  have hpr : ∀ pid p, (initial stdfile path).procs pid = some p →
      pid = 1 ∧ initProc stdfile path = p := by
    intro pid p hp
    simp only [initial] at hp
    split at hp
    · exact ⟨‹_›, some.inj hp⟩
    · cases hp
  have hrf : refs (initial stdfile path) = Multiset.replicate 3 stdfile := by
    rw [← tableRefs_initProc stdfile path]
    simp [refs, initial, sum_range_succ, procRefs]
  refine ⟨⟨?_, ?_, ?_⟩, ?_⟩
  · intro pid p hp
    exact (hpr pid p hp).1.trans_lt one_lt_two
  · intro pid p hp
    rw [← (hpr pid p hp).2]
    exact (by decide : 3 ≤ openMax)
  · exact (by decide : 2 ≤ procMax + 1)
  · unfold Exact FileCounts
    rw [hrf]
    constructor
    · intro f
      by_cases hf : f = stdfile
      · simp [initial, hf]
      · simp [initial, hf]
    · intro f
      by_cases hf : f = stdfile <;> simp [initial, hf]

/-- Balanced calls keep the counts exact, and no others do. -/
theorem reached_exact (stdfile : FilePtr) (path : Filedesc) (h : Reached (initial stdfile path) s) :
    (∀ f, (s.files f).numRef = (refs s).count f ∧ ((s.files f).freed ↔ (refs s).count f = 0)) ∧
      ∀ e, Allowed s e → (Exact (next s e) ↔ ∀ p, s.procs e.pid = some p → Balanced p e.op) := by
  have hiv : WellFormed s ∧ Exact s := by
    apply h.invariant (fun s => WellFormed s ∧ Exact s) (exact_initial stdfile path)
    rintro s e s' ⟨hw, hec⟩ ⟨hal, hbl⟩ hnx
    cases hnx
    exact ⟨hw.next hal.1, (exact_next_iff hw hec hal).mpr hbl⟩
  refine ⟨fun f => ⟨hiv.2.num_eq f, ?_⟩, fun e he => exact_next_iff hiv.1 hiv.2 he⟩
  rw [Multiset.count_eq_zero]
  exact hiv.2.freed_iff f

def freshFork : Event := ⟨1, .fork ⟨fun _ => .zero, 0, 0⟩⟩

def forked : System := next (initial 1 .zero) freshFork

theorem reached_exact_forked : (forked.files 1).numRef = 6 ∧ (refs forked).count 1 = 6 := by
  have hre : Reached (initial 1 .zero) forked := by
    have hlg : Legal (initial 1 .zero) freshFork.op := ⟨by decide, by decide⟩
    refine .step .start ⟨⟨hlg, fun _ _ => trivial⟩, ?_⟩ rfl
    intro p _ i _ huse
    exact absurd rfl huse
  have hct := ((reached_exact 1 .zero hre).1 1).1
  exact ⟨rfl, hct.symm.trans rfl⟩

/-- A child whose `max_fd` was never set exits without a release; and `poll` on a pipe, which has
no poll head, keeps a reference. -/
theorem references_lost :
    ((next forked ⟨2, .exit⟩).files 1).numRef = 6 ∧ (refs (next forked ⟨2, .exit⟩)).count 1 = 3 ∧
      ((next (next (initial 1 .zero) ⟨1, .pipe 10 11⟩)
        ⟨1, .poll none [3] fun _ => false⟩).files 10).numRef = 2 ∧
      (refs (next (next (initial 1 .zero) ⟨1, .pipe 10 11⟩)
        ⟨1, .poll none [3] fun _ => false⟩)).count 10 = 1 :=
  ⟨by decide +kernel, by decide +kernel, by decide +kernel, by decide +kernel⟩

end FileReferenceCounts
