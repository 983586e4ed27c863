import Mathlib.Algebra.BigOperators.Intervals
import SalernosKernel.FileDescriptorAccess
import SalernosKernel.FileDescriptorBound
import SalernosKernel.References

/-! # References to files

The remaining calls that take and give back references to files, and for every call whether the
counters agree afterwards with the tables. -/
namespace FileReferences

open FileDescriptors ProcessFiles FileDescriptorAccess FileDescriptorDup
open References List
open Runs (foldl_range_invariant)
open Function
open Multiset (card card_add)
open Multiset (le_add_left le_add_right)

def setFlags (files : Files) (f : FilePtr) (arg : ℤ) : Files :=
  let file := files f
  update files f { file with flags := (arg % 2 ^ 64).toNat }

def setFdFlags (p : Proc) (i : ℕ) (arg : ℤ) : Proc :=
  let d := p.fd i
  { p with fd := update p.fd i { d with flags := (arg % 2 ^ 64).toNat } }

def fcntl (p : Proc) (files : Files) (fd : ℤ) (op : FcntlOp) (arg : ℤ) : Proc × Files :=
  let file := comSysProcGetFileNolock p fd
  let held := hold files file
  match file, op with
  | some _, .dupfd => fcntlDup p files fd arg false
  | some _, .dupfdCloexec => fcntlDup p files fd arg true
  | some f, .setfl => (p, release (setFlags held f arg) file)
  | some _, .setfd => (setFdFlags p fd.toNat arg, release held file)
  | _, _ => (p, release held file)

abbrev Timeout := Option (ℤ × ℤ)

def Timeout.Invalid : Timeout → Prop
  | none => False
  | some (sec, nsec) => sec < 0 ∨ nsec < 0 ∨ nsec ≥ 1000000000

instance : DecidablePred Timeout.Invalid
  | none => inferInstanceAs (Decidable False)
  | some (_, _) => inferInstanceAs (Decidable (_ ∨ _ ∨ _))

/-- One round of the first loop of `com_sys_syscall_poll`, with `polled->file` of the rounds so
far. A file is not put down there if its vnode has no poll head. -/
def pollRound (p : Proc) (pollHead : FilePtr → Bool) (acc : Files × List (Option FilePtr))
    (fd : ℤ) : Files × List (Option FilePtr) :=
  if fd < 0 then (acc.1, acc.2 ++ [none])
  else
    match comSysProcGetFileNolock p fd with
    | none => (acc.1, acc.2 ++ [none])
    | some f => (hold acc.1 (some f), acc.2 ++ [if pollHead f then some f else none])

/-- The loop that waits in between takes and gives back no reference. -/
def poll (p : Proc) (files : Files) (timeout : Timeout) (fds : List ℤ)
    (pollHead : FilePtr → Bool) : Files :=
  if timeout.Invalid then files
  else
    let acc := fds.foldl (pollRound p pollHead) (files, [])
    acc.2.foldl release acc.1

/-- The new program's name is put behind the table. -/
def execve (p : Proc) (files : Files) (path : Filedesc) : Proc × Files :=
  ProcessFiles.execve { p with fd := update p.fd openMax path } files

def tableRefs (fd : Table) : Multiset FilePtr :=
  ∑ i ∈ Finset.range openMax, ofOption (fd i).file

def FileCounts (files : Files) (refs : Multiset FilePtr) : Prop :=
  Counts (fun f => (files f).numRef) (fun f => (files f).freed) refs

variable {p : Proc} {fd fd' : Table} {files : Files} {refs rest : Multiset FilePtr} {i : ℕ}
  {f : FilePtr} {o : Option FilePtr} {n : ℤ}

theorem tableRefs_congr (h : ∀ i < openMax, (fd' i).file = (fd i).file) :
    tableRefs fd' = tableRefs fd := by
  apply Finset.sum_congr rfl
  intro i hi
  rw [h i (Finset.mem_range.mp hi)]

theorem tableRefs_split (hi : i < openMax) (fd : Table) :
    ∃ rest, tableRefs fd = rest + ofOption (fd i).file ∧
      ∀ fd' : Table, (∀ j, j ≠ i → (fd' j).file = (fd j).file) →
        tableRefs fd' = rest + ofOption (fd' i).file := by
  obtain ⟨rest, hrs, hot⟩ :=
    exists_sum_eq_add (Finset.mem_range.mpr hi) fun i => ofOption (fd i).file
  refine ⟨rest, hrs, fun fd' h => ?_⟩
  apply hot fun i => ofOption (fd' i).file
  intro j hj
  rw [h j hj]

theorem ofOption_le_tableRefs (hi : i < openMax) : ofOption (fd i).file ≤ tableRefs fd := by
  obtain ⟨rest, hrs, -⟩ := tableRefs_split hi fd
  rw [hrs]
  exact le_add_left _ _

theorem card_tableRefs_le (fd : Table) : card (tableRefs fd) ≤ openMax :=
  card_sum_range_le (fun i => (fd i).file) openMax

theorem getFile_le (hn : n ≠ openMax) :
    ofOption (comSysProcGetFileNolock p n) ≤ tableRefs p.fd := by
  unfold comSysProcGetFileNolock
  split
  · exact Multiset.zero_le _
  · rename_i hrj
    exact ofOption_le_tableRefs (toNat_lt_of_inTable ((inTable_or_eq hrj).resolve_right hn))

def limit : ℕ := 2 ^ 63

theorem numRef_update (file : File) : (fun g => (update files f file g).numRef) =
    update (fun g => (files g).numRef) f file.numRef :=
  funext fun g => apply_update (fun _ => File.numRef) files f file g

theorem freed_update (file : File) : (fun g => (update files f file g).freed) =
    update (fun g => (files g).freed) f file.freed :=
  funext fun g => apply_update (fun _ => File.freed) files f file g

theorem FileCounts.hold (h : FileCounts files refs) (ho : ofOption o ≤ refs)
    (hcr : card refs < limit) :
    FileCounts (hold files o) (refs + ofOption o) := by
  cases o with
  | none => simpa [hold] using h
  | some f =>
    have hme : f ∈ refs := Multiset.singleton_le.mp ho
    have hnm : ((files f).numRef + 1) % 2 ^ 64 = (files f).numRef + 1 := by
      have := h.le_card f
      apply Nat.mod_eq_of_lt
      unfold limit at hcr
      omega
    have hnw := h.acquire hme
    unfold FileCounts hold
    simp only [numRef_update, freed_update, hnm, update_eq_self]
    rwa [add_ofOption_some]

theorem FileCounts.release (h : FileCounts files (refs + ofOption o))
    (hcr : card refs < limit) : FileCounts (release files o) refs := by
  cases o with
  | none => simpa [release] using h
  | some f =>
    rw [add_ofOption_some] at h
    have hps : (files f).numRef = refs.count f + 1 := by
      have := h.num_eq f
      simpa using this
    have hle := Multiset.count_le_card f refs
    have hnm : ((files f).numRef + (2 ^ 64 - 1)) % 2 ^ 64 = (files f).numRef - 1 := by
      unfold limit at hcr
      omega
    have hlv : (files f).freed = false := by
      have := h.freed_iff f
      simpa using this
    have hnw := h.drop
    unfold FileCounts release
    simp only [numRef_update, freed_update, hnm, hlv, Bool.false_or]
    exact hnw

theorem freed_hold (files : Files) (o : Option FilePtr) (g : FilePtr) :
    (hold files o g).freed = (files g).freed := by
  cases o with
  | none => rfl
  | some f => by_cases hg : g = f <;> simp [hold, hg]

theorem FileCounts.create (h : FileCounts files refs) (hf : (files f).freed) (flags : ℕ) :
    FileCounts (update files f ⟨flags, 1, false⟩) (refs + ofOption (some f)) := by
  have hnw := Counts.create h ((h.freed_iff f).mp hf)
  unfold FileCounts
  simp only [numRef_update, freed_update]
  rwa [add_ofOption_some]

theorem FileCounts.hold_release (h : FileCounts files refs) (ho : ofOption o ≤ refs)
    (hcr : card refs < limit) :
    FileCounts (ProcessFiles.release (ProcessFiles.hold files o) o) refs :=
  (h.hold ho hcr).release hcr

theorem clear_refs (hi : i < openMax) (fd : Table) :
    tableRefs fd = tableRefs (update fd i .zero) + ofOption (fd i).file := by
  obtain ⟨rest, hrs, hot⟩ := tableRefs_split hi fd
  have hcl := hot (update fd i .zero) fun j hj => by simp [hj]
  rw [hrs, hcl]
  simp [Filedesc.zero]

theorem closeFile_refs (hn : n ≠ openMax) : tableRefs p.fd =
    tableRefs (comSysProcCloseFileNolock p n).2.fd +
      ofOption (comSysProcCloseFileNolock p n).1.toOption := by
  rcases closeFile_cases p n with ⟨err, heq, -⟩ | ⟨file, hrj, hfl, heq⟩
  · simp [heq, Except.toOption]
  · have hin := toNat_lt_of_inTable ((inTable_or_eq hrj).resolve_right hn)
    have hcl := clear_refs hin p.fd
    rw [hfl] at hcl
    rw [heq]
    exact hcl

theorem copySlot_refs {t : ℕ} (ht : t < openMax) (hfr : ¬ InUse p.fd t) (i : ℕ) :
    tableRefs (p.copySlot t i).fd = tableRefs p.fd + ofOption (p.fd i).file := by
  obtain ⟨rest, hrs, hot⟩ := tableRefs_split ht p.fd
  have hcp := hot (p.copySlot t i).fd fun j hj => by simp [Proc.copySlot, hj]
  have hno : (p.fd t).file = none := not_not.mp hfr
  rw [hrs, hcp, hno]
  simp [Proc.copySlot]

theorem install_refs (hi : i < openMax) (file : FilePtr) :
    tableRefs (p.install i file).fd + ofOption (p.fd i).file =
      tableRefs p.fd + ofOption (some file) := by
  obtain ⟨rest, hrs, hot⟩ := tableRefs_split hi p.fd
  have hnw := hot (p.install i file).fd fun j hj => by simp [Proc.install, hj]
  rw [hrs, hnw, add_right_comm]
  simp [Proc.install]

theorem install_refs_iff (hi : i < openMax) (file : FilePtr) :
    tableRefs (p.install i file).fd = tableRefs p.fd + ofOption (some file) ↔ ¬ InUse p.fd i := by
  rw [← install_refs hi file, left_eq_add, ofOption_eq_zero, InUse, not_not]

theorem hint_eq_iff (hi : i < openMax) (hfr : ¬ InUse fd i) :
    hint fd (i + 1) = i ↔ ∀ j < openMax, j ≠ i → InUse fd j := by
  constructor
  · intro heq j hj hne
    by_contra hjf
    rcases Nat.lt_or_gt_of_ne hne with hlt | hgt
    · have hle : hint fd (i + 1) ≤ j ∨ i + 1 ≤ hint fd (i + 1) := by
        unfold hint
        split
        · exact .inr (le_skipOpen _ _)
        · exact .inl (skipOpen_le_of_free (Nat.zero_le j) hjf)
      omega
    · have hsk : skipOpen fd (i + 1) < openMax := (skipOpen_le_of_free hgt hjf).trans_lt hj
      have := le_skipOpen fd (i + 1)
      rw [hint_of_lt hsk] at heq
      omega
  · intro hal
    rw [hint_of_full fun j hij hj => hal j hj (Nat.ne_of_gt hij)]
    exact skipOpen_eq (Nat.zero_le i) hi.le (fun j _ hj => hal j (hj.trans hi) hj.ne) fun _ => hfr

theorem install_install_refs_iff {j : ℕ} (hi : i < openMax) (hj : j < openMax) (f g : FilePtr) :
    tableRefs ((p.install i f).install j g).fd =
        tableRefs p.fd + ofOption (some f) + ofOption (some g) ↔
      ¬ InUse p.fd i ∧ j ≠ i ∧ ¬ InUse p.fd j := by
  have hsc := install_refs (p := p.install i f) hj g
  have hif : ofOption ((p.install i f).fd j).file + ofOption (p.fd i).file = 0 ↔
      ¬ InUse p.fd i ∧ j ≠ i ∧ ¬ InUse p.fd j := by
    rw [add_eq_zero, ofOption_eq_zero, ofOption_eq_zero]
    by_cases hji : j = i
    · simp [Proc.install, hji]
    · simp [Proc.install, InUse, hji, and_comm]
  rw [← hif, ← install_refs hi f, add_right_comm, ← hsc, add_assoc, left_eq_add]

section Call

variable {R : Multiset FilePtr} (h : FileCounts files (R + tableRefs p.fd))
  (hcr : card R + openMax + 1 < limit)

include hcr in
theorem card_lt (fd : Table) : card (R + tableRefs fd) < limit := by
  have := card_tableRefs_le fd
  rw [card_add]
  omega

include hcr in
theorem card_add_lt (fd : Table) (o : Option FilePtr) :
    card (R + tableRefs fd + ofOption o) < limit := by
  have := card_tableRefs_le fd
  have := card_ofOption_le o
  rw [card_add, card_add]
  omega

include h hcr

theorem close_counts (hn : n ≠ openMax) :
    FileCounts (close p files n).2 (R + tableRefs (close p files n).1.fd) := by
  rw [close_fst]
  rw [closeFile_refs hn, ← add_assoc] at h
  exact h.release (card_lt hcr _)

theorem dup3_counts {oldFd newFd : ℤ} (hnw : newFd ≠ openMax)
    (hold : oldFd = openMax → Rejected newFd) :
    FileCounts (dup3 p files oldFd newFd).2 (R + tableRefs (dup3 p files oldFd newFd).1.fd) := by
  have hrf := closeFile_refs (p := p) hnw
  by_cases hrj : Rejected oldFd ∨ Rejected newFd
  · have heq : comSysProcDuplicateFileNolock (comSysProcCloseFileNolock p newFd).2 newFd oldFd =
        (.error .EINVAL, (comSysProcCloseFileNolock p newFd).2) := if_pos hrj
    rw [hrf, ← add_assoc] at h
    simp only [dup3, heq]
    exact h.release (card_lt hcr _)
  · push Not at hrj
    -- The copy is a reference more before the old file of the slot is given back.
    have hlt := toNat_lt_of_inTable ((inTable_or_eq hrj.2).resolve_right hnw)
    have hol := toNat_lt_of_inTable
      ((inTable_or_eq hrj.1).resolve_right fun heq => hrj.2 (hold heq))
    have hfr : ¬ InUse (comSysProcCloseFileNolock p newFd).2.fd newFd.toNat := by
      simpa [InUse] using closeFile_free hrj.2
    have hcy := copySlot_refs hlt hfr oldFd.toNat
    simp only [dup3, dup3_eq hrj.1 hrj.2, procUpdateFdHint, hcy]
    generalize (comSysProcCloseFileNolock p newFd).2 = q at *
    have hfl : ((q.copySlot newFd.toNat oldFd.toNat).fd newFd.toNat).file =
        (q.fd oldFd.toNat).file := by
      simp [Proc.copySlot]
    have hle : ofOption (q.fd oldFd.toNat).file ≤ R + tableRefs p.fd := by
      rw [hrf, ← add_assoc]
      exact (ofOption_le_tableRefs hol).trans
        ((le_add_left _ _).trans (le_add_right _ _))
    have hhd := h.hold hle (card_lt hcr _)
    rw [hfl]
    apply FileCounts.release
    · rw [hrf] at hhd
      convert hhd using 1
      simp only [add_assoc, add_comm, add_left_comm]
    · rw [← hcy]
      exact card_lt hcr _

theorem fcntlDup_counts {fd arg : ℤ} (hfd : fd ≠ openMax)
    (hrm : Opened p fd → ¬ Rejected arg → ∃ i, arg.toNat ≤ i ∧ i < openMax ∧ ¬ InUse p.fd i)
    (cloexec : Bool) : FileCounts (fcntlDup p files fd arg cloexec).2
      (R + tableRefs (fcntlDup p files fd arg cloexec).1.fd) := by
  have hle : ofOption (comSysProcGetFileNolock p fd) ≤ R + tableRefs p.fd :=
    (getFile_le hfd).trans (le_add_left _ _)
  rcases fcntlDup_cases p fd arg cloexec with ⟨err, heq, -⟩ | ⟨hrj, har, hus, p', -, hp', heq⟩
  · simp only [fcntlDup, heq]
    exact h.hold_release hle (card_lt hcr _)
  · have hin : InTable fd := (inTable_or_eq hrj).resolve_right hfd
    have hlt := (skipOpen_lt_iff _ _).2 (hrm ⟨hin, hus⟩ har)
    have hcy := copySlot_refs hlt (not_inUse_skipOpen hlt) fd.toNat
    have hfl : comSysProcGetFileNolock p fd = (p.fd fd.toNat).file := if_neg hrj
    simp only [fcntlDup, heq]
    generalize skipOpen p.fd arg.toNat = t at *
    have hsl : ∀ j, ((if cloexec then p'.setCloexec t else p').fd j).file =
        ((p.copySlot t fd.toNat).fd j).file := by
      intro j
      subst hp'
      cases cloexec
      · rfl
      · by_cases hj : j = t <;> simp [Proc.setCloexec, procUpdateFdHint, hj]
    have hrf := (tableRefs_congr fun j _ => hsl j).trans hcy
    have htr : ((p.copySlot t fd.toNat).fd t).file = (p.fd fd.toNat).file := by
      simp [Proc.copySlot]
    rw [hrf, hsl t, htr, hfl, ← add_assoc]
    rw [hfl] at hle
    -- Two references are taken, one for the call itself.
    have hhd := h.hold hle (card_lt hcr _)
    have hcr' := card_add_lt hcr p.fd (p.fd fd.toNat).file
    exact (hhd.hold (le_add_left _ _) hcr').release hcr'

theorem fcntl_counts {fd arg : ℤ} {op : FcntlOp} (hsf : Safe p (.fcntl fd op arg)) :
    FileCounts (fcntl p files fd op arg).2 (R + tableRefs (fcntl p files fd op arg).1.fd) := by
  obtain ⟨hfd, hdp⟩ := hsf
  have hle : ofOption (comSysProcGetFileNolock p fd) ≤ R + tableRefs p.fd :=
    (getFile_le hfd).trans (le_add_left _ _)
  have hkp := h.hold_release hle (card_lt hcr _)
  unfold fcntl
  cases hfl : comSysProcGetFileNolock p fd with
  | none => exact h
  | some f =>
    rw [hfl] at hle hkp
    cases op with
    | dupfd => exact fcntlDup_counts h hcr hfd (hdp (.inl rfl)) false
    | dupfdCloexec => exact fcntlDup_counts h hcr hfd (hdp (.inr rfl)) true
    | setfl =>
      have hhd := h.hold hle (card_lt hcr _)
      refine FileCounts.release ?_ (card_lt hcr _)
      have hnm : FileCounts (setFlags (hold files (some f)) f arg)
          (R + tableRefs p.fd + ofOption (some f)) := by
        unfold FileCounts setFlags
        simp only [numRef_update, freed_update, update_eq_self]
        exact hhd
      exact hnm
    | setfd =>
      have hrf : tableRefs (setFdFlags p fd.toNat arg).fd = tableRefs p.fd := by
        apply tableRefs_congr
        intro i _
        by_cases hi : i = fd.toNat <;> simp [setFdFlags, hi]
      simp only [hrf]
      exact hkp
    | getfl | getfd | getpipeSz | unknown => exact hkp

theorem openat_counts_iff {dirFd : ℤ} (hdr : dirFd ≠ openMax) (lookup : Option Errno)
    {file : FilePtr} (hfr : (files file).freed) (flags : ℕ) :
    FileCounts (openat p files dirFd lookup file flags).2
        (R + tableRefs (openat p files dirFd lookup file flags).1.fd) ↔
      ((∃ f, comSysProcGetDirectory p dirFd = .ok f) → lookup = none → p.nextFd < openMax →
        ¬ InUse p.fd p.nextFd) := by
  unfold openat
  cases hd : comSysProcGetDirectory p dirFd with
  | error err => simpa using h
  | ok dirFile =>
    have hle : ofOption dirFile ≤ R + tableRefs p.fd := by
      refine le_trans ?_ ((getFile_le (p := p) hdr).trans (le_add_left _ _))
      unfold comSysProcGetDirectory at hd
      split at hd
      · cases hd
        exact Multiset.zero_le _
      · split at hd <;> simp_all
    have hkp := h.hold_release hle (card_lt hcr _)
    cases lookup with
    | some err => simpa [comSysSyscallOpenat] using hkp
    | none =>
      rcases lt_or_ge p.nextFd openMax with hlt | hfll
      · simp only [openat_ok hlt]
        have hhd := h.hold hle (card_lt hcr _)
        have hnw := hhd.create ((freed_hold files dirFile file).trans hfr) flags
        rw [add_right_comm] at hnw
        have hdn := hnw.release (card_add_lt hcr p.fd (some file))
        apply hdn.iff_eq.trans
        simp only [Except.ok.injEq, exists_eq', true_implies, hlt, add_assoc, add_right_inj]
        exact install_refs_iff (p := p.advance) hlt file
      · simp only [openat_full hfll]
        simpa [not_lt_of_ge hfll] using hkp

omit hcr in
theorem pipe_counts_iff {rf wf : FilePtr} (hr : (files rf).freed) (hw : (files wf).freed)
    (hne : wf ≠ rf) :
    FileCounts (pipe p files rf wf).2 (R + tableRefs (pipe p files rf wf).1.fd) ↔
      (p.nextFd < openMax → (∃ i < openMax, ¬ InUse p.fd i) →
        ¬ InUse p.fd p.nextFd ∧ ∃ i < openMax, i ≠ p.nextFd ∧ ¬ InUse p.fd i) := by
  by_cases hfll : openMax ≤ p.nextFd ∨ openMax ≤ p.advance.nextFd
  · simp only [pipe, pipe_full hfll]
    refine iff_of_true h fun hlt ⟨i, hi, hfr⟩ => ?_
    have heq : hint p.fd (p.nextFd + 1) = openMax :=
      le_antisymm hint_le (hfll.resolve_left (Nat.not_le_of_lt hlt))
    exact absurd (inUse_of_hint_eq heq hi) hfr
  · push Not at hfll
    obtain ⟨hrl, hwl⟩ := hfll
    have hwf : ¬ InUse p.fd p.advance.nextFd := hint_free hwl
    simp only [pipe, pipe_ok hrl hwl]
    have hwr : (update files rf ⟨0, 1, false⟩ wf).freed := by
      rw [update_of_ne hne]
      exact hw
    apply ((h.create hr 0).create hwr 0).iff_eq.trans
    have hif := install_install_refs_iff (p := p.advance.advance) hrl hwl rf wf
    rw [add_assoc R, add_assoc R, add_right_inj]
    apply hif.trans
    constructor
    · rintro ⟨hrr, hdf, -⟩ - -
      exact ⟨hrr, p.advance.nextFd, hwl, hdf, hwf⟩
    · intro hcd
      obtain ⟨hrr, j, hj, hjr, hjf⟩ := hcd hrl ⟨_, hwl, hwf⟩
      refine ⟨hrr, fun heq => ?_, hwf⟩
      exact hjf ((hint_eq_iff hrl hrr).mp heq j hj hjr)

end Call

section Poll

variable {pollHead : FilePtr → Bool} {fds : List ℤ} {os : List (Option FilePtr)}

theorem FileCounts.holdAll (h : FileCounts files refs) (hal : ∀ o ∈ os, ofOption o ≤ refs)
    (hcr : card refs + os.length < limit) :
    FileCounts (os.foldl ProcessFiles.hold files) (refs + (os.map ofOption).sum) := by
  induction os generalizing files refs with
  | nil => simpa using h
  | cons o os ih =>
    have hcn := card_ofOption_le o
    rw [length_cons] at hcr
    have hhd := h.hold (hal o mem_cons_self) (by omega)
    have hnx := ih hhd (fun o' ho' => (hal o' (mem_cons_of_mem _ ho')).trans
      (le_add_right _ _)) (by rw [card_add]; omega)
    simpa [add_assoc] using hnx

theorem FileCounts.releaseAll (h : FileCounts files (refs + (os.map ofOption).sum))
    (hcr : card (refs + (os.map ofOption).sum) < limit) :
    FileCounts (os.foldl ProcessFiles.release files) refs := by
  induction os generalizing files with
  | nil => simpa using h
  | cons o os ih =>
    rw [map_cons, sum_cons, add_comm (ofOption o), ← add_assoc] at h hcr
    have hls := (Multiset.card_le_card (le_add_right _ _)).trans_lt hcr
    exact ih (h.release hls) hls

theorem pollLoop_eq (acc : Files × List (Option FilePtr)) : fds.foldl (pollRound p pollHead) acc =
      ((fds.map (comSysProcGetFileNolock p)).foldl hold acc.1,
        acc.2 ++ fds.map fun fd => (comSysProcGetFileNolock p fd).filter pollHead) := by
  induction fds generalizing acc with
  | nil => simp
  | cons fd fds ih =>
    have hrn : pollRound p pollHead acc fd = (hold acc.1 (comSysProcGetFileNolock p fd),
        acc.2 ++ [(comSysProcGetFileNolock p fd).filter pollHead]) := by
      unfold pollRound
      split
      · have hrj : Rejected fd := .inl ‹_›
        simp [comSysProcGetFileNolock, hrj, hold]
      · cases comSysProcGetFileNolock p fd with
        | none => rfl
        | some f => simp [Option.filter]
    simp [ih, hrn]

def leaked (p : Proc) (pollHead : FilePtr → Bool) (fds : List ℤ) : Multiset FilePtr :=
  (fds.map fun fd => ofOption ((comSysProcGetFileNolock p fd).filter fun f => !pollHead f)).sum

theorem leaked_eq_zero : leaked p pollHead fds = 0 ↔
    ∀ fd ∈ fds, ∀ f, comSysProcGetFileNolock p fd = some f → pollHead f := by
  induction fds with
  | nil => simp [leaked]
  | cons fd fds ih =>
    have hcn : leaked p pollHead (fd :: fds) =
        ofOption ((comSysProcGetFileNolock p fd).filter fun f => !pollHead f) +
          leaked p pollHead fds := by
      simp [leaked]
    rw [hcn, add_eq_zero, ofOption_eq_zero, ih, forall_mem_cons]
    simp [Option.filter_eq_none_iff]

theorem poll_refs (pollHead : FilePtr → Bool) :
    ((fds.map (comSysProcGetFileNolock p)).map ofOption).sum = leaked p pollHead fds +
      ((fds.map fun fd => (comSysProcGetFileNolock p fd).filter pollHead).map ofOption).sum := by
  induction fds with
  | nil => simp [leaked]
  | cons fd fds ih =>
    have hsp : ofOption (comSysProcGetFileNolock p fd) =
        ofOption ((comSysProcGetFileNolock p fd).filter fun f => !pollHead f) +
          ofOption ((comSysProcGetFileNolock p fd).filter pollHead) := by
      cases comSysProcGetFileNolock p fd with
      | none => rfl
      | some f => cases hf : pollHead f <;> simp [Option.filter, hf]
    simp only [leaked, map_cons, sum_cons] at ih ⊢
    rw [ih, hsp]
    simp only [add_assoc, add_comm, add_left_comm]

theorem poll_counts_iff {R : Multiset FilePtr} (h : FileCounts files (R + tableRefs p.fd))
    (hcr : card R + openMax + fds.length < limit) (hfs : ∀ fd ∈ fds, fd ≠ openMax)
    (timeout : Timeout) :
    FileCounts (poll p files timeout fds pollHead) (R + tableRefs p.fd) ↔ (¬ timeout.Invalid →
      ∀ fd ∈ fds, ∀ f, comSysProcGetFileNolock p fd = some f → pollHead f) := by
  have hrf : card (R + tableRefs p.fd) + fds.length < limit := by
    have := card_tableRefs_le p.fd
    rw [card_add]
    omega
  unfold poll
  by_cases hiv : timeout.Invalid
  · simpa [hiv] using h
  · simp only [hiv, if_false, pollLoop_eq, nil_append, not_false_eq_true, true_implies]
    have hal : ∀ o ∈ fds.map (comSysProcGetFileNolock p), ofOption o ≤ R + tableRefs p.fd := by
      intro o ho
      obtain ⟨fd, hfd, rfl⟩ := mem_map.mp ho
      exact (getFile_le (hfs fd hfd)).trans (le_add_left _ _)
    have hhd := h.holdAll hal (by simpa using hrf)
    have hsu := card_sum_ofOption_le (fds.map (comSysProcGetFileNolock p))
    rw [length_map] at hsu
    have hlt : card (R + tableRefs p.fd +
        ((fds.map (comSysProcGetFileNolock p)).map ofOption).sum) < limit := by
      rw [card_add]
      omega
    rw [poll_refs pollHead, ← add_assoc] at hhd hlt
    have hdn := hhd.releaseAll hlt
    apply hdn.iff_eq.trans
    rw [left_eq_add, leaked_eq_zero]

end Poll

section Loops

variable {R : Multiset FilePtr} {mem : Proc}

theorem forkLoop_counts (h : FileCounts files (R + tableRefs p.fd))
    (hcr : card R + 2 * openMax < limit) (hmx : p.maxFd ≤ openMax) (mem : Proc) :
    FileCounts (fork p files mem).2
      (R + tableRefs p.fd + ∑ i ∈ Finset.range p.maxFd, ofOption (p.fd i).file) := by
  let I : ℕ → Table × Files → Prop := fun n acc => n ≤ openMax →
    FileCounts acc.2 (R + tableRefs p.fd + ∑ i ∈ Finset.range n, ofOption (p.fd i).file)
  refine foldl_range_invariant (f := forkRound p) I (fun _ => by simpa using h) ?_ hmx
  intro n acc hacc hn
  have hct := hacc (Nat.le_of_succ_le hn)
  rw [Finset.sum_range_succ, ← add_assoc]
  have hrn : (forkRound p acc n).2 = hold acc.2 (p.fd n).file := by
    unfold forkRound
    split
    · rfl
    · rename_i hus
      rw [not_not.mp hus]
      rfl
  rw [hrn]
  apply hct.hold
  · exact (ofOption_le_tableRefs hn).trans
      ((le_add_left _ _).trans (le_add_right _ _))
  · have hsu := card_sum_range_le (fun i => (p.fd i).file) n
    have htb := card_tableRefs_le p.fd
    rw [card_add, card_add]
    omega

theorem fork_refs (hmx : p.maxFd ≤ openMax) : tableRefs (fork p files mem).1.fd =
    (∑ i ∈ Finset.range p.maxFd, ofOption (p.fd i).file) + ∑ i ∈ Finset.range openMax,
        if i < p.maxFd ∧ InUse p.fd i then 0 else ofOption (mem.fd i).file := by
  have hbl : ∑ i ∈ Finset.range p.maxFd, ofOption (p.fd i).file =
      ∑ i ∈ Finset.range openMax, if i < p.maxFd then ofOption (p.fd i).file else 0 := by
    rw [← Finset.sum_filter]
    congr 1
    ext i
    simp only [Finset.mem_range, Finset.mem_filter]
    omega
  rw [hbl, ← Finset.sum_add_distrib]
  apply Finset.sum_congr rfl
  intro i _
  rw [fork_fd]
  by_cases hi : i < p.maxFd ∧ InUse p.fd i
  · simp [hi]
  · by_cases hlt : i < p.maxFd
    · have hfr : ¬ InUse p.fd i := fun hus => hi ⟨hlt, hus⟩
      simp [hlt, hfr, not_not.mp hfr]
    · simp [hlt]

section

variable (h : FileCounts files (R + tableRefs p.fd))

include h

theorem fork_counts_iff
    (hcr : card R + 2 * openMax < limit) (hmx : p.maxFd ≤ openMax) (mem : Proc) :
    FileCounts (fork p files mem).2 (R + tableRefs p.fd + tableRefs (fork p files mem).1.fd) ↔
      ∀ i < openMax, InUse mem.fd i → i < p.maxFd ∧ InUse p.fd i := by
  apply (forkLoop_counts h hcr hmx mem).iff_eq.trans
  rw [fork_refs hmx, add_right_inj, add_eq_left, Finset.sum_eq_zero_iff]
  apply forall_congr'
  intro i
  rw [Finset.mem_range]
  apply imp_congr_right
  intro _
  by_cases hcp : i < p.maxFd ∧ InUse p.fd i
  · simp [hcp]
  · simp only [hcp, if_false, ofOption_eq_zero, imp_false]
    exact not_not.symm

section

variable (hcr : card R + openMax < limit)

include hcr

theorem execve_counts (hmx : p.maxFd ≤ openMax) (path : Filedesc) :
    FileCounts (execve p files path).2 (R + tableRefs (execve p files path).1.fd) := by
  let I : ℕ → Table × Files → Prop := fun n acc => n ≤ openMax →
    FileCounts acc.2 (R + tableRefs acc.1)
  have hst : tableRefs (update p.fd openMax path) = tableRefs p.fd :=
    tableRefs_congr fun i hi => by simp [hi.ne]
  refine foldl_range_invariant (f := execveRound) I (fun _ => by simpa [hst] using h) ?_ hmx
  intro n acc hacc hn
  have hct := hacc (Nat.le_of_succ_le hn)
  unfold execveRound
  split
  · rw [clear_refs hn, ← add_assoc] at hct
    apply hct.release
    have := card_tableRefs_le (update acc.1 n .zero)
    rw [card_add]
    omega
  · exact hct

theorem exitLoop_counts (hmx : p.maxFd ≤ openMax) :
    FileCounts (comSysProcExit p files).2.1
      (R + ∑ i ∈ Finset.Ico p.maxFd openMax, ofOption (p.fd i).file) := by
  let I : ℕ → Table × Files × List FilePtr → Prop := fun n acc => n ≤ openMax →
    (∀ i, n ≤ i → acc.1 i = p.fd i) ∧
      FileCounts acc.2.1 (R + ∑ i ∈ Finset.Ico n openMax, ofOption (p.fd i).file)
  have hlp : I p.maxFd (comSysProcExit p files) := by
    refine foldl_range_invariant I (fun _ => ⟨fun _ _ => rfl, ?_⟩) ?_
    · rwa [← Finset.range_eq_Ico]
    · intro n acc hacc hn
      obtain ⟨hrs, hct⟩ := hacc (Nat.le_of_succ_le hn)
      rw [Finset.sum_eq_sum_Ico_succ_bot hn, add_comm (ofOption _), ← add_assoc] at hct
      have hls : card (R + ∑ i ∈ Finset.Ico (n + 1) openMax, ofOption (p.fd i).file) <
          limit := by
        have hle : ∑ i ∈ Finset.Ico (n + 1) openMax, ofOption (p.fd i).file ≤ tableRefs p.fd :=
          Finset.sum_le_sum_of_subset fun i hi => Finset.mem_range.mpr (Finset.mem_Ico.mp hi).2
        have := (Multiset.card_le_card hle).trans (card_tableRefs_le p.fd)
        rw [card_add]
        omega
      cases hfl : (p.fd n).file with
      | none =>
        simp only [exitRound, hrs n le_rfl, hfl, ofOption_none, add_zero] at hct ⊢
        exact ⟨fun i hi => hrs i (Nat.le_of_succ_le hi), hct⟩
      | some f =>
        rw [hfl] at hct
        simp only [exitRound, hrs n le_rfl, hfl]
        refine ⟨fun i hi => ?_, hct.release hls⟩
        have hsm := hrs i (Nat.le_of_succ_le hi)
        split
        · exact (update_of_ne (Nat.ne_of_gt hi) _ _).trans hsm
        · exact hsm
  exact (hlp hmx).2

theorem exit_counts_iff (hmx : p.maxFd ≤ openMax) :
    FileCounts (comSysProcExit p files).2.1 R ↔ FileDescriptorBound.Bounded p := by
  apply (exitLoop_counts h hcr hmx).iff_eq.trans
  rw [left_eq_add, Finset.sum_eq_zero_iff]
  constructor
  · intro hal i hi hus
    by_contra hge
    exact hus (ofOption_eq_zero.mp (hal i (Finset.mem_Ico.mpr ⟨Nat.le_of_not_lt hge, hi⟩)))
  · intro hbd i hi
    rw [Finset.mem_Ico] at hi
    rw [ofOption_eq_zero]
    by_contra hus
    exact absurd (hbd i hi.2 hus) (Nat.not_lt_of_ge hi.1)

end

end

end Loops

end FileReferences
