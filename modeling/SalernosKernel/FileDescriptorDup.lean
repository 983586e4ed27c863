import SalernosKernel.ProcessFiles

/-! # Duplication of a descriptor

`dup3` closes its second argument before it looks at the first, and the check on both lets
`CONFIG_OPEN_MAX` through. -/
namespace FileDescriptorDup

open FileDescriptors ProcessFiles

def InTable (fd : ℤ) : Prop := 0 ≤ fd ∧ fd < openMax
  deriving Decidable

def Opened (p : Proc) (fd : ℤ) : Prop := InTable fd ∧ InUse p.fd fd.toNat

structure Atomic (p : Proc) (files : Files) (oldFd newFd : ℤ) : Prop where
  /-- `COM_FS_FILE_RELEASE` gets a file of the table, never what lies behind it. -/
  valid : ∀ f, (comSysProcCloseFileNolock p newFd).1 = .ok f → InTable newFd
  refused : ¬ Opened p oldFd ∨ ¬ InTable newFd →
    (∃ err, (comSysSyscallDup3 p oldFd newFd).1 = .error err) ∧
      ∀ i < openMax, (dup3 p files oldFd newFd).1.fd i = p.fd i
  same : Opened p oldFd → newFd = oldFd →
    ((dup3 p files oldFd newFd).1.fd newFd.toNat).file = (p.fd newFd.toNat).file
  others : Opened p oldFd → InTable newFd → newFd ≠ oldFd →
    ∀ i, i ≠ newFd.toNat → (dup3 p files oldFd newFd).1.fd i = p.fd i
  copied : Opened p oldFd → InTable newFd → newFd ≠ oldFd →
    ((dup3 p files oldFd newFd).1.fd newFd.toNat).file = (p.fd oldFd.toNat).file
  /-- One reference of the file in the slot goes; if it is the file copied, one comes. -/
  released : Opened p oldFd → InTable newFd → newFd ≠ oldFd →
    ∀ f, (p.fd newFd.toNat).file = some f →
      (((dup3 p files oldFd newFd).2 f).numRef + 1) % 2 ^ 64 =
        ((files f).numRef + if (p.fd oldFd.toNat).file = some f then 1 else 0) % 2 ^ 64

def Sound (p : Proc) (oldFd newFd : ℤ) : Prop :=
  Rejected newFd ∨ Rejected oldFd ∧ ¬ InUse p.fd newFd.toNat ∨
    Opened p oldFd ∧ InTable newFd ∧ newFd ≠ oldFd

variable {p : Proc} {files : Files} {oldFd newFd : ℤ} {i : ℕ}

theorem not_rejected_of_inTable (h : InTable newFd) : ¬ Rejected newFd := by
  unfold Rejected
  have := h.1
  have := h.2
  omega

theorem toNat_lt_of_inTable (h : InTable newFd) : newFd.toNat < openMax := by
  have := h.1
  have := h.2
  omega

theorem inTable_or_eq (h : ¬ Rejected newFd) : InTable newFd ∨ newFd = openMax := by
  unfold Rejected at h
  unfold InTable
  omega

theorem toNat_injective (ho : InTable oldFd) (hn : InTable newFd) (hne : newFd ≠ oldFd) :
    oldFd.toNat ≠ newFd.toNat := by
  have := ho.1
  have := hn.1
  omega

theorem closeFile_fd (h : i ≠ newFd.toNat) :
    (comSysProcCloseFileNolock p newFd).2.fd i = p.fd i := by
  rcases closeFile_cases p newFd with ⟨err, heq, -⟩ | ⟨file, -, -, heq⟩
  · rw [heq]
  · rw [heq]
    exact Function.update_of_ne h _ _

theorem closeFile_free (hn : ¬ Rejected newFd) :
    ((comSysProcCloseFileNolock p newFd).2.fd newFd.toNat).file = none := by
  rcases closeFile_cases p newFd with ⟨err, heq, hwh⟩ | ⟨file, -, -, heq⟩
  · rw [heq]
    simpa [InUse] using hwh.resolve_left hn
  · rw [heq]
    simp [Proc.recycle, Filedesc.zero]

theorem dup3_eq (ho : ¬ Rejected oldFd) (hn : ¬ Rejected newFd) :
    comSysProcDuplicateFileNolock (comSysProcCloseFileNolock p newFd).2 newFd oldFd =
      (.ok newFd.toNat, procUpdateFdHint
        ((comSysProcCloseFileNolock p newFd).2.copySlot newFd.toNat oldFd.toNat)) := by
  have hfr : ¬ InUse (comSysProcCloseFileNolock p newFd).2.fd newFd.toNat := by
    simpa [InUse] using closeFile_free hn
  have hsk := skipOpen_of_free (toNat_le_of_not_rejected hn) hfr
  rcases duplicate_cases (comSysProcCloseFileNolock p newFd).2 newFd oldFd with
    ⟨err, -, hwh⟩ | ⟨-, -, -, heq⟩
  · rw [hsk] at hwh
    tauto
  · rw [heq, hsk]

theorem dup3_fd (ho : ¬ Rejected oldFd) (hn : ¬ Rejected newFd) :
    (dup3 p files oldFd newFd).1.fd i = if i = newFd.toNat then
      ⟨if oldFd.toNat = newFd.toNat then none else (p.fd oldFd.toNat).file, 0⟩ else p.fd i := by
  rw [dup3_fst, comSysSyscallDup3, dup3_eq ho hn]
  by_cases hi : i = newFd.toNat
  · by_cases heq : oldFd.toNat = newFd.toNat
    · simp [procUpdateFdHint, Proc.copySlot, hi, heq, closeFile_free hn]
    · simp [procUpdateFdHint, Proc.copySlot, hi, heq, closeFile_fd heq]
  · simp [procUpdateFdHint, Proc.copySlot, hi, closeFile_fd hi]

theorem dup3_error (h : Rejected oldFd ∨ Rejected newFd) : comSysSyscallDup3 p oldFd newFd =
      (.error .EINVAL, (comSysProcCloseFileNolock p newFd).2) := by
  have heq : comSysProcDuplicateFileNolock (comSysProcCloseFileNolock p newFd).2 newFd oldFd =
      (.error .EINVAL, (comSysProcCloseFileNolock p newFd).2) := if_pos h
  rw [comSysSyscallDup3, heq]
  rfl

theorem closeFile_rejected (h : Rejected newFd ∨ ¬ InUse p.fd newFd.toNat) :
    ∃ err, comSysProcCloseFileNolock p newFd = (.error err, p) := by
  rcases closeFile_cases p newFd with ⟨err, heq, -⟩ | ⟨file, hrj, hfl, -⟩
  · exact ⟨err, heq⟩
  · simp [hrj, InUse, hfl] at h

theorem numRef_release_hold (files : Files) (g : Option FilePtr) (f : FilePtr) :
    ((release (hold files g) (some f) f).numRef + 1) % 2 ^ 64 =
      ((files f).numRef + if g = some f then 1 else 0) % 2 ^ 64 := by
  cases g with
  | none =>
    simp only [hold, release, Function.update_self, reduceCtorEq, if_false]
    omega
  | some g =>
    by_cases h : g = f
    · simp only [hold, release, h, Function.update_self, if_true]
      omega
    · simp only [hold, release, Function.update_self, Function.update_of_ne (Ne.symm h),
        Option.some.injEq, h, if_false]
      omega

theorem dup3_files (ho : ¬ Rejected oldFd) (hn : ¬ Rejected newFd) (f : FilePtr)
    (hf : (p.fd newFd.toNat).file = some f) :
    (dup3 p files oldFd newFd).2 = release (hold files
      ((dup3 p files oldFd newFd).1.fd newFd.toNat).file) (some f) := by
  have hcs : (comSysProcCloseFileNolock p newFd).1.toOption = some f := by
    rcases closeFile_cases p newFd with ⟨err, -, hwh⟩ | ⟨file, -, hfl, heq⟩
    · simp [hn, InUse, hf] at hwh
    · rw [heq, ← hf, hfl]
      rfl
  unfold dup3
  rw [dup3_eq ho hn, hcs]

theorem Atomic.sound (h : Atomic p files oldFd newFd) : Sound p oldFd newFd := by
  by_cases hn : Rejected newFd
  · exact .inl hn
  right
  by_cases ho : Rejected oldFd
  · refine .inl ⟨ho, fun huse => ?_⟩
    -- The slot has been cleared although the call fails.
    have htb : InTable newFd := by
      rcases closeFile_cases p newFd with ⟨err, -, hwh⟩ | ⟨file, -, -, heq⟩
      · simp [hn, huse] at hwh
      · exact h.valid file (by rw [heq])
    have hcl : ¬ Opened p oldFd := fun hop => not_rejected_of_inTable hop.1 ho
    have hkp := (h.refused (.inl hcl)).2 newFd.toNat (toNat_lt_of_inTable htb)
    apply huse
    rw [← hkp, dup3_fst, dup3_error (.inl ho)]
    exact closeFile_free hn
  · right
    have hok : ¬ (¬ Opened p oldFd ∨ ¬ InTable newFd) := by
      intro hbd
      obtain ⟨err, her⟩ := (h.refused hbd).1
      simp [comSysSyscallDup3, dup3_eq ho hn, Except.map] at her
    rw [not_or, not_not, not_not] at hok
    refine ⟨hok.1, hok.2, fun heq => ?_⟩
    subst heq
    apply hok.1.2
    rw [← h.same hok.1 rfl, dup3_fd ho hn, if_pos rfl, if_pos rfl]

theorem Sound.atomic (h : Sound p oldFd newFd) (files : Files) : Atomic p files oldFd newFd := by
  rcases h with hn | ⟨ho, hfr⟩ | ⟨hop, htb, hne⟩
  · have hnt : ¬ InTable newFd := fun htb => not_rejected_of_inTable htb hn
    obtain ⟨err, hclose⟩ := closeFile_rejected (.inl hn) (p := p)
    refine ⟨fun f hf => by simp [hclose] at hf, fun _ => ?_, ?_, ?_, ?_, ?_⟩
    · rw [dup3_fst, dup3_error (.inr hn), hclose]
      exact ⟨⟨_, rfl⟩, fun _ _ => rfl⟩
    · rintro hop rfl
      exact absurd hop.1 hnt
    · exact fun _ htb => absurd htb hnt
    · exact fun _ htb => absurd htb hnt
    · exact fun _ htb => absurd htb hnt
  · have hcl : ¬ Opened p oldFd := fun hop => not_rejected_of_inTable hop.1 ho
    obtain ⟨err, hclose⟩ := closeFile_rejected (.inr hfr)
    refine ⟨fun f hf => by simp [hclose] at hf, fun _ => ?_, fun hop => absurd hop hcl,
      fun hop => absurd hop hcl, fun hop => absurd hop hcl, fun hop => absurd hop hcl⟩
    rw [dup3_fst, dup3_error (.inl ho), hclose]
    exact ⟨⟨_, rfl⟩, fun _ _ => rfl⟩
  · have ho := not_rejected_of_inTable hop.1
    have hn := not_rejected_of_inTable htb
    have hix := toNat_injective hop.1 htb hne
    have hcp : ((dup3 p files oldFd newFd).1.fd newFd.toNat).file = (p.fd oldFd.toNat).file := by
      rw [dup3_fd ho hn, if_pos rfl, if_neg hix]
    refine ⟨fun _ _ => htb, ?_, fun _ heq => absurd heq hne, fun _ _ _ i hi => ?_, fun _ _ _ => hcp,
      fun _ _ _ f hf => ?_⟩
    · rintro (hbd | hbd)
      · exact absurd hop hbd
      · exact absurd htb hbd
    · rw [dup3_fd ho hn, if_neg hi]
    · rw [dup3_files ho hn f hf, hcp]
      exact numRef_release_hold files _ f

/-- A `dup3` is atomic exactly on sound arguments. -/
theorem dup3_atomic_iff (p : Proc) (files : Files) (oldFd newFd : ℤ) :
    Atomic p files oldFd newFd ↔ Sound p oldFd newFd :=
  ⟨Atomic.sound, fun h => h.atomic files⟩

theorem dup3_atomic_sample : Atomic (initProc 1 .zero) (fun _ => ⟨0, 2, false⟩) 0 1 ∧
      ((dup3 (initProc 1 .zero) (fun _ => ⟨0, 2, false⟩) 0 5).1.fd 5).file = some 1 :=
  ⟨(dup3_atomic_iff _ _ 0 1).mpr (.inr (.inr ⟨⟨by decide, by decide⟩, by decide, by decide⟩)), rfl⟩

/-- A descriptor duplicated to itself is closed; one that is not open closes the second argument,
without an error; and index 96 is taken for a slot. -/
theorem dup3_not_atomic : (comSysSyscallDup3 (initProc 1 .zero) 0 0).1 = .ok 0 ∧
      ((comSysSyscallDup3 (initProc 1 .zero) 0 0).2.fd 0).file = none ∧
      (comSysSyscallDup3 (initProc 1 .zero) 7 0).1 = .ok 0 ∧
      ((comSysSyscallDup3 (initProc 1 .zero) 7 0).2.fd 0).file = none ∧
      (comSysSyscallDup3 (initProc 1 .zero) 0 96).1 = .ok 0 :=
  ⟨by decide, by decide, by decide, by decide, by decide⟩

end FileDescriptorDup
