import SalernosKernel.FileDescriptors

/-! # Allocation of file descriptors

System calls of one process on its table. -/
namespace FileDescriptorAllocation

open FileDescriptors Finset

inductive Event where
  | openat (lookup : Option Errno) (file : FilePtr)
  | pipe (rf wf : FilePtr)
  | dup3 (oldFd newFd : ℤ)
  | fcntlDup (fd arg : ℤ) (cloexec : Bool)
  | close (fd : ℤ)
  deriving DecidableEq

def next (p : Proc) : Event → Proc
  | .openat lookup file => (comSysSyscallOpenat p lookup file).2
  | .pipe rf wf => (comSysSyscallPipe p rf wf).2
  | .dup3 oldFd newFd => (comSysSyscallDup3 p oldFd newFd).2
  | .fcntlDup fd arg cloexec => (comSysSyscallFcntlDup p fd arg cloexec).2
  | .close fd => (comSysSyscallClose p fd).2

def Empty (p : Proc) : Prop := (∀ i < openMax, ¬ InUse p.fd i) ∧ p.nextFd = 0

def Reached (p₀ : Proc) : Proc → Prop :=
  Runs.Reaches (fun p e => some (next p e)) (fun _ _ => True) p₀

/-- The calls of `com_sys_proc_next_fd` in a system call, each with the slots that the same system
call has been given before. -/
def nextFdCalls (p : Proc) : Event → List (Proc × List ℕ)
  | .openat none _ => [(p, [])]
  | .pipe _ _ => [(p, []), ((comSysProcNextFd p).2, (comSysProcNextFd p).1.toList)]
  | _ => []

def leastFree (fd : Table) (reserved : List ℕ) : Option ℕ :=
  (List.range openMax).find? fun i => decide (¬ InUse fd i ∧ i ∉ reserved)

/-- The system call is given the least free slots and overwrites none in use. -/
structure Exact (p : Proc) (e : Event) : Prop where
  calls : ∀ c ∈ nextFdCalls p e, (comSysProcNextFd c.1).1 = leastFree c.1.fd c.2
  openat : ∀ file i, e = .openat none file → (comSysSyscallOpenat p none file).1 = .ok i →
    ¬ InUse p.fd i
  pipe : ∀ rf wf r w, e = .pipe rf wf → (comSysSyscallPipe p rf wf).1 = .ok (r, w) →
    r ≠ w ∧ ¬ InUse p.fd r ∧ ¬ InUse p.fd w

def Stale (p : Proc) : Prop := p.nextFd < openMax ∧ InUse p.fd p.nextFd

def freeSlots (fd : Table) : Finset ℕ := (range openMax).filter fun i => ¬ InUse fd i

def Roomy (p : Proc) : Event → Prop
  | .openat none _ => ¬ Stale p
  | .pipe _ _ => ¬ Stale p ∧ (freeSlots p.fd).card ≠ 1
  | _ => True

variable {p p' p₀ : Proc} {e : Event} {fd fd' : Table} {i j : ℕ} {R : List ℕ}

def Packed (p : Proc) : Prop := ∀ i < p.nextFd, i < openMax → InUse p.fd i

theorem below_hint (hj : j < hint fd i) : InUse fd j ∨ j < i := by
  by_cases hij : i ≤ j
  · left
    unfold hint at hj
    split at hj
    · exact inUse_of_lt_skipOpen hij hj
    · exact inUse_of_lt_skipOpen (Nat.zero_le _) hj
  · exact .inr (Nat.lt_of_not_le hij)

section

variable (h : Packed p)

include h

theorem Packed.openat (lookup : Option Errno) (file : FilePtr) :
    Packed (comSysSyscallOpenat p lookup file).2 := by
  cases lookup with
  | some err => exact h
  | none =>
    rcases Nat.lt_or_ge p.nextFd openMax with hlt | hfl
    · rw [openat_ok hlt]
      intro j hj hmax
      rw [inUse_install]
      rcases below_hint hj with hus | hj
      · exact .inr hus
      · rcases Nat.lt_succ_iff_lt_or_eq.mp hj with hj | heq
        · exact .inr (h j hj hmax)
        · exact .inl heq
    · rw [openat_full hfl]
      intro j _ hj
      exact h j (hj.trans_le hfl) hj

theorem Packed.pipe (rf wf : FilePtr) : Packed (comSysSyscallPipe p rf wf).2 := by
  rcases Nat.lt_or_ge p.nextFd openMax with hr | hr
  · rcases Nat.lt_or_ge p.advance.nextFd openMax with hw | hw
    · rw [pipe_ok hr hw]
      -- Below the hint after both calls only the two slots of the pipe were free.
      intro j hj hmax
      rw [inUse_install, inUse_install]
      rcases below_hint hj with hus | hj
      · exact .inr (.inr hus)
      rcases Nat.lt_succ_iff_lt_or_eq.mp hj with hj | heq
      · rcases below_hint hj with hus | hj
        · exact .inr (.inr hus)
        rcases Nat.lt_succ_iff_lt_or_eq.mp hj with hj | heq
        · exact .inr (.inr (h j hj hmax))
        · exact .inr (.inl heq)
      · exact .inl heq
    · rw [pipe_full (.inr hw)]
      intro j _ hj
      exact inUse_of_hint_eq (le_antisymm hint_le hw) hj
  · rw [pipe_full (.inl hr)]
    intro j _ hj
    exact h j (hj.trans_le hr) hj

theorem Packed.duplicate (newFd oldFd : ℤ) :
    Packed (comSysProcDuplicateFileNolock p newFd oldFd).2 := by
  rcases duplicate_cases p newFd oldFd with ⟨err, heq, -⟩ | ⟨-, -, hfr, heq⟩
  · rw [heq]
    exact h
  · rw [heq]
    intro j hj hmax
    rcases below_hint hj with hus | hlt
    · exact hus
    · have hus : InUse p.fd j := h j hlt hmax
      have hne : j ≠ skipOpen p.fd newFd.toNat := by
        rintro rfl
        exact hfr hus
      rw [procUpdateFdHint, inUse_copySlot, if_neg hne]
      exact hus

theorem Packed.closeFile (fd : ℤ) : Packed (comSysProcCloseFileNolock p fd).2 := by
  rcases closeFile_cases p fd with ⟨err, heq, -⟩ | ⟨file, -, -, heq⟩
  · rw [heq]
    exact h
  · rw [heq]
    intro j hj hmax
    simp only [Proc.recycle] at hj
    rw [inUse_recycle]
    split at hj
    · exact ⟨hj.ne, h j (hj.trans ‹_›) hmax⟩
    · exact ⟨by omega, h j hj hmax⟩

theorem Packed.fcntlDup (fd arg : ℤ) (cloexec : Bool) :
    Packed (comSysSyscallFcntlDup p fd arg cloexec).2 := by
  rcases fcntlDup_cases p fd arg cloexec with ⟨err, heq, -⟩ | ⟨-, -, -, p', hdp, -, heq⟩
  · rw [heq]
    exact h
  · rw [heq]
    have h' := h.duplicate arg fd
    rw [hdp] at h'
    cases cloexec with
    | false => exact h'
    | true =>
      intro j hj hmax
      exact inUse_setCloexec.mpr (h' j hj hmax)

theorem Packed.next (e : Event) : Packed (next p e) := by
  cases e with
  | openat lookup file => exact h.openat lookup file
  | pipe rf wf => exact h.pipe rf wf
  | dup3 oldFd newFd => exact (h.closeFile newFd).duplicate newFd oldFd
  | fcntlDup fd arg cloexec => exact h.fcntlDup fd arg cloexec
  | close fd =>
    rw [FileDescriptorAllocation.next, close_snd]
    exact h.closeFile fd

end

theorem Reached.packed (h : Reached p₀ p) (h₀ : Empty p₀) : Packed p := by
  apply Runs.Reaches.invariant h Packed
  · intro i hi
    rw [h₀.2] at hi
    exact absurd hi (Nat.not_lt_zero i)
  · intro p e p' hp _ hn
    obtain rfl : next p e = p' := Option.some.inj hn
    exact hp.next e

theorem leastFree_eq_some : leastFree fd R = some i ↔
    i < openMax ∧ (¬ InUse fd i ∧ i ∉ R) ∧ ∀ j < i, InUse fd j ∨ j ∈ R := by
  unfold leastFree
  rw [List.find?_range_eq_some]
  simp only [decide_eq_true_eq, List.mem_range, Bool.not_eq_true', decide_eq_false_iff_not,
    not_and_or, not_not]
  tauto

theorem leastFree_eq_none : leastFree fd R = none ↔ ∀ j < openMax, InUse fd j ∨ j ∈ R := by
  unfold leastFree
  rw [List.find?_range_eq_none]
  simp only [Bool.not_eq_true', decide_eq_false_iff_not, not_and_or, not_not]

theorem nextFd_eq_leastFree_iff (h : Packed p) :
    (comSysProcNextFd p).1 = leastFree p.fd [] ↔ ¬ Stale p := by
  unfold comSysProcNextFd Stale
  rcases Nat.lt_or_ge p.nextFd openMax with hlt | hfl
  · rw [if_neg (Nat.not_le_of_lt hlt), eq_comm, leastFree_eq_some]
    constructor
    · rintro ⟨-, hfr, -⟩ ⟨-, hus⟩
      exact hfr.1 hus
    · intro hst
      refine ⟨hlt, ⟨fun hus => hst ⟨hlt, hus⟩, List.not_mem_nil⟩, fun j hj => ?_⟩
      exact .inl (h j hj (hj.trans hlt))
  · rw [if_pos hfl, eq_comm, leastFree_eq_none]
    constructor
    · rintro - ⟨hlt, -⟩
      exact absurd hlt (Nat.not_lt_of_ge hfl)
    · intro _ j hj
      exact .inl (h j (hj.trans_le hfl) hj)

theorem card_freeSlots_ne_one_iff (hi : i < openMax) (hfr : ¬ InUse fd i) :
    (freeSlots fd).card ≠ 1 ↔ ∃ j < openMax, j ≠ i ∧ ¬ InUse fd j := by
  have hme : i ∈ freeSlots fd := mem_filter.mpr ⟨mem_range.mpr hi, hfr⟩
  constructor
  · intro hcr
    by_contra hno
    push Not at hno
    apply hcr
    rw [card_eq_one]
    refine ⟨i, eq_singleton_iff_unique_mem.mpr ⟨hme, fun j hj => ?_⟩⟩
    obtain ⟨hj, hjf⟩ := mem_filter.mp hj
    by_contra hne
    exact hjf (hno j (mem_range.mp hj) hne)
  · rintro ⟨j, hj, hne, hjf⟩ hcr
    obtain ⟨a, ha⟩ := card_eq_one.mp hcr
    have hjm : j ∈ freeSlots fd := mem_filter.mpr ⟨mem_range.mpr hj, hjf⟩
    rw [ha, mem_singleton] at hme hjm
    exact hne (hjm.trans hme.symm)

theorem secondFd_eq_leastFree_iff (h : Packed p) (hst : ¬ Stale p) :
    (comSysProcNextFd p.advance).1 = leastFree p.fd (comSysProcNextFd p).1.toList ↔
      (freeSlots p.fd).card ≠ 1 := by
  unfold comSysProcNextFd
  rw [advance_nextFd]
  rcases Nat.lt_or_ge p.nextFd openMax with hlt | hfl
  · have hfr : ¬ InUse p.fd p.nextFd := fun hus => hst ⟨hlt, hus⟩
    rw [if_neg (Nat.not_le_of_lt hlt), Option.toList_some, card_freeSlots_ne_one_iff hlt hfr]
    by_cases hot : ∃ j < openMax, j ≠ p.nextFd ∧ ¬ InUse p.fd j
    · obtain ⟨j, hj, hne, hjf⟩ := hot
      have hgt : p.nextFd + 1 ≤ j := by
        by_contra hle
        exact hjf (h j (by omega) hj)
      have hsk : skipOpen p.fd (p.nextFd + 1) < openMax :=
        (skipOpen_le_of_free hgt hjf).trans_lt hj
      rw [hint_of_lt hsk, if_neg (Nat.not_le_of_lt hsk)]
      refine iff_of_true (Eq.symm ?_) ⟨j, hj, hne, hjf⟩
      rw [leastFree_eq_some]
      refine ⟨hsk, ⟨not_inUse_skipOpen hsk, ?_⟩, fun k hk => ?_⟩
      · rw [List.mem_singleton]
        exact Nat.ne_of_gt (le_skipOpen p.fd (p.nextFd + 1))
      · rw [List.mem_singleton]
        rcases Nat.lt_trichotomy k p.nextFd with hkl | rfl | hkg
        · exact .inl (h k hkl (hkl.trans hlt))
        · exact .inr rfl
        · exact .inl (inUse_of_lt_skipOpen hkg hk)
    · -- The search wraps around to the slot that has just been handed out.
      have hal : ∀ j < openMax, j ≠ p.nextFd → InUse p.fd j := by
        push Not at hot
        exact hot
      have hwr : hint p.fd (p.nextFd + 1) = p.nextFd := by
        rw [hint_of_full fun j hj hmax => hal j hmax (Nat.ne_of_gt hj)]
        exact skipOpen_eq (Nat.zero_le _) hlt.le (fun j _ hj => h j hj (hj.trans hlt)) fun _ => hfr
      rw [hwr, if_neg (Nat.not_le_of_lt hlt)]
      refine iff_of_false (fun heq => ?_) hot
      have hno : leastFree p.fd [p.nextFd] = none := by
        rw [leastFree_eq_none]
        intro j hj
        by_cases hne : j = p.nextFd
        · exact .inr (List.mem_singleton.mpr hne)
        · exact .inl (hal j hj hne)
      rw [hno] at heq
      exact Option.some_ne_none _ heq
  · have hal : ∀ j < openMax, InUse p.fd j := fun j hj => h j (hj.trans_le hfl) hj
    rw [if_pos hfl, hint_eq_openMax hal, if_pos le_rfl, Option.toList_none]
    refine iff_of_true (leastFree_eq_none.mpr fun j hj => .inl (hal j hj)).symm ?_
    have hem : freeSlots p.fd = ∅ := by
      rw [freeSlots, filter_eq_empty_iff]
      intro j hj hjf
      exact hjf (hal j (mem_range.mp hj))
    rw [hem]
    simp

theorem not_inUse_of_pipe (h : Packed p) (hrm : Roomy p (.pipe i j)) {r w : ℕ}
    (hok : (comSysSyscallPipe p i j).1 = .ok (r, w)) :
    r ≠ w ∧ ¬ InUse p.fd r ∧ ¬ InUse p.fd w := by
  rcases Nat.lt_or_ge p.nextFd openMax with hr | hr
  · rcases Nat.lt_or_ge p.advance.nextFd openMax with hw | hw
    · rw [pipe_ok hr hw] at hok
      obtain ⟨rfl, rfl⟩ := Prod.mk.inj (Except.ok.inj hok)
      -- The second slot is the least free one other than the first.
      have hsc := (secondFd_eq_leastFree_iff h hrm.1).mpr hrm.2
      unfold comSysProcNextFd at hsc
      rw [if_neg (Nat.not_le_of_lt hr), if_neg (Nat.not_le_of_lt hw), eq_comm, Option.toList_some,
        leastFree_eq_some, List.mem_singleton] at hsc
      obtain ⟨-, ⟨hfr, hne⟩, -⟩ := hsc
      exact ⟨Ne.symm hne, fun hus => hrm.1 ⟨hr, hus⟩, hfr⟩
    · rw [pipe_full (.inr hw)] at hok
      simp at hok
  · rw [pipe_full (.inl hr)] at hok
    simp at hok

theorem exact_iff_roomy (h : Packed p) (e : Event) : Exact p e ↔ Roomy p e := by
  constructor
  · intro hec
    have hcl := hec.calls
    cases e with
    | openat lookup file =>
      cases lookup with
      | some err => trivial
      | none => exact (nextFd_eq_leastFree_iff h).mp (hcl (p, []) (by simp [nextFdCalls]))
    | pipe rf wf =>
      have hfs : ¬ Stale p :=
        (nextFd_eq_leastFree_iff h).mp (hcl (p, []) (by simp [nextFdCalls]))
      refine ⟨hfs, (secondFd_eq_leastFree_iff h hfs).mp ?_⟩
      exact hcl (p.advance, (comSysProcNextFd p).1.toList)
        (by simp [nextFdCalls, comSysProcNextFd])
    | dup3 | fcntlDup | close => trivial
  · intro hrm
    constructor
    · intro c hc
      cases e with
      | openat lookup file =>
        cases lookup with
        | some err => simp [nextFdCalls] at hc
        | none =>
          obtain rfl : c = (p, []) := by simpa [nextFdCalls] using hc
          exact (nextFd_eq_leastFree_iff h).mpr hrm
      | pipe rf wf =>
        rw [nextFdCalls, List.mem_cons, List.mem_singleton] at hc
        rcases hc with rfl | rfl
        · exact (nextFd_eq_leastFree_iff h).mpr hrm.1
        · exact (secondFd_eq_leastFree_iff h hrm.1).mpr hrm.2
      | dup3 | fcntlDup | close => simp [nextFdCalls] at hc
    · rintro file i rfl hok hus
      rcases lt_or_ge p.nextFd openMax with hlt | hfl
      · rw [openat_ok hlt] at hok
        obtain rfl : p.nextFd = i := Except.ok.inj hok
        exact hrm ⟨hlt, hus⟩
      · rw [openat_full hfl] at hok
        simp at hok
    · rintro rf wf r w rfl hok
      exact not_inUse_of_pipe h hrm hok

/-- In every state a process can come to, with no restriction on the calls before. -/
theorem allocation_exact_iff (h₀ : Empty p₀) (h : Reached p₀ p) (e : Event) :
    Exact p e ↔ Roomy p e :=
  exact_iff_roomy (h.packed h₀) e

def emptyProc : Proc := ⟨fun _ => .zero, 0, 0⟩

theorem allocation_exact_after_close :
    Exact (next (next emptyProc (.pipe 1 2)) (.close 0)) (.pipe 3 4) := by
  have hrc : Reached emptyProc (next (next emptyProc (.pipe 1 2)) (.close 0)) :=
    .step (.step .start trivial rfl) trivial rfl
  exact (allocation_exact_iff ⟨by decide, rfl⟩ hrc (.pipe 3 4)).mpr
    ⟨by unfold Stale; decide, by decide⟩

def opened : ℕ → Proc
  | 0 => emptyProc
  | k + 1 => next (opened k) (.openat none (k + 1))

theorem opened_reached (k : ℕ) : Reached emptyProc (opened k) := by
  induction k with
  | zero => exact .start
  | succ k ih => exact .step ih trivial rfl

theorem opened_spec (k : ℕ) (hk : k < openMax) :
    (opened k).nextFd = k ∧ ∀ j, InUse (opened k).fd j ↔ j < k := by
  induction k with
  | zero =>
    refine ⟨rfl, fun j => ?_⟩
    simp [opened, emptyProc, InUse, Filedesc.zero]
  | succ k ih =>
    obtain ⟨hnx, hus⟩ := ih (Nat.lt_of_succ_lt hk)
    have hlt : (opened k).nextFd < openMax := by
      rw [hnx]
      exact Nat.lt_of_succ_lt hk
    have hsk : skipOpen (opened k).fd (k + 1) = k + 1 :=
      skipOpen_eq le_rfl hk.le (fun j hj hj' => absurd hj' (Nat.not_lt_of_ge hj)) fun _ => by
        rw [hus]
        omega
    rw [opened, next, openat_ok hlt, hnx]
    constructor
    · change hint (opened k).fd ((opened k).nextFd + 1) = k + 1
      rw [hnx, hint_of_lt (hsk.trans_lt hk), hsk]
    · intro j
      rw [inUse_install, advance_fd, hus]
      omega

/-- With one slot left a pipe gets it for both ends; after one more file has been opened the next
one takes the slot of that file. -/
theorem last_slot_twice : Empty emptyProc ∧ Reached emptyProc (opened 95) ∧
      (comSysSyscallPipe (opened 95) 1 2).1 = .ok (95, 95) ∧
      Reached emptyProc (opened 96) ∧ InUse (opened 96).fd 95 ∧
        (comSysSyscallOpenat (opened 96) none 97).1 = .ok 95 := by
  obtain ⟨hnx, hus⟩ := opened_spec 95 (by decide)
  have hlt : (opened 95).nextFd < openMax := hnx.trans_lt (by decide)
  have hed : ∀ j, 95 + 1 ≤ j → j < openMax → InUse (opened 95).fd j :=
    fun j hj hmax => absurd hj (Nat.not_le_of_lt hmax)
  have hwr : (opened 95).advance.nextFd = 95 := by
    rw [advance_nextFd, hnx, hint_of_full hed]
    exact skipOpen_eq (by decide) (by decide) (fun j _ hj => (hus j).mpr hj) fun _ => by
      rw [hus]
      exact lt_irrefl _
  have hls : opened 96 = (opened 95).advance.install 95 96 := by
    rw [opened, next, openat_ok hlt, hnx]
  refine ⟨⟨by decide, rfl⟩, opened_reached 95, ?_, opened_reached 96, ?_, ?_⟩
  · rw [pipe_ok hlt (hwr.trans_lt (by decide)), hwr, hnx]
  · rw [hls, inUse_install]
    exact .inl rfl
  · have hst : (opened 96).nextFd = 95 := by rw [hls, install_nextFd, hwr]
    rw [openat_ok (hst.trans_lt (by decide)), hst]

end FileDescriptorAllocation
