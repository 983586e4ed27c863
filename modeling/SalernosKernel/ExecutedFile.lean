import SalernosKernel.ElfLoader
import SalernosKernel.FrameGuard

/-! # Executed files

The pages of a file of the tmpfs are the pages that `load` maps for its segments. Only clearing the
rest of the last page goes to such a page. -/
namespace ExecutedFile

open PageTable PageTableDuplicate FileMapping ElfSegment FrameGuard Option BitVec
open ElfLoader (contents loadInto script scriptPages_frame scriptSystem)
open ForkMemory (System userEntry)
open PageFaultPrefault (x8664MmuFaultIsr)
open PageCache (comFsPagecacheGet)

def framesOf (file : File) : Set ℕ := { f | ∃ i, comFsPagecacheGet file.data i = some f }

def lastPage (phdr : Phdr) (vaddr : BitVec 64) : ℕ :=
  (phdr.off.toNat + headLen phdr vaddr) / archPageSize +
    (phdr.fileSz.toNat - headLen phdr vaddr) / archPageSize

structure Setting (zeroPage : Entry) (file : File) : Prop where
  zero_aligned : zeroPage.toNat % archPageSize = 0
  zero_lt : zeroPage.toNat < 2 ^ 63
  zero_page : zeroPage.toNat / archPageSize ∉ framesOf file
  null : 0 ∉ framesOf file

def Spared (file : File) (phdr : Phdr) (vaddr : BitVec 64) (mem : ℕ → BitVec 8) : Prop :=
  0 < phdr.fileSz.toInt → headLen phdr vaddr < phdr.fileSz.toNat →
    tail phdr vaddr ≠ 0 → 0 < (phdr.memSz - phdr.fileSz).toInt →
    ∀ q < file.size, ∀ f, comFsPagecacheGet file.data (lastPage phdr vaddr) = some f →
      comFsPagecacheGet file.data (q / archPageSize) = some f → tail phdr vaddr ≤ q % archPageSize →
      q % archPageSize < tail phdr vaddr + (phdr.memSz - phdr.fileSz).toNat →
        mem (archPageSize * f + q % archPageSize) = 0

structure LoadAllowed (file : File) (s : System) (phdr : Phdr) (vaddr : BitVec 64)
    (newPhys : Entry) : Prop where
  fresh : NeedsHead phdr vaddr → Fresh s.pageMeta newPhys 1
  inRange : phdr.off.toNat + phdr.fileSz.toNat < 2 ^ 64
  count : ∀ f ∈ framesOf file, (s.pageMeta.entries f).numRef + phdr.fileSz.toNat < 2 ^ 64
  spared : Spared file phdr vaddr s.mem

def Unchanged (file : File) (mem mem' : ℕ → BitVec 8) : Prop :=
  ∀ q < file.size, ∀ f, comFsPagecacheGet file.data (q / archPageSize) = some f →
    mem' (archPageSize * f + q % archPageSize) = mem (archPageSize * f + q % archPageSize)

variable {zeroPage newPhys : Entry} {file : File} {wild : ℕ → Entry} {phdr : Phdr} {fuel : ℕ}
  {mem mem' : ℕ → BitVec 8} {pt : Pagetable} {vaddr : BitVec 64} {g g' : Segment} {s s' : System}

theorem unchanged_of_sameOn (h : SameOn (framesOf file) mem mem') : Unchanged file mem mem' :=
  fun q _ f hf => h f ⟨_, hf⟩ _ (Nat.mod_lt _ (by decide))

theorem read_eq (h : Unchanged file mem mem') (off n : ℕ) :
    comFsVfsRead (file.node mem') off n = comFsVfsRead (file.node mem) off n := by
  have hsp := fun m => @ElfLoader.read_spec _ file.size (fun m => (file.node m).data) m off n
  refine (hsp mem').trans (Eq.trans ?_ (hsp mem).symm)
  have hby : ElfLoader.bytesAt (file.node mem').data off (ElfLoader.readCount file.size off n) =
      ElfLoader.bytesAt (file.node mem).data off (ElfLoader.readCount file.size off n) := by
    refine List.map_congr_left fun q hq => ?_
    have hlt : q < file.size := by
      have hrn := List.mem_range'_1.mp hq
      rw [ElfLoader.readCount] at hrn
      split_ifs at hrn <;> omega
    cases hgt : comFsPagecacheGet file.data (q / archPageSize) with
    | none =>
      have hz : ∀ m, TmpfsFile.byteAt (file.node m).data q = 0 := by
        intro m
        have hno : comFsPagecacheGet (file.node m).data (q / archPageSize) = none := hgt
        rw [TmpfsFile.byteAt, hno]
      rw [hz, hz]
    | some f =>
      apply UInt8.toBitVec_inj.mp
      rw [byteAt_node hgt, byteAt_node hgt]
      exact h q hlt f hgt
  rw [hby]

theorem read_length {off n : ℕ} {answer : TmpfsFile.Answer}
    (h : comFsVfsRead (file.node mem) off n = some answer) : (bytesOf answer).length ≤ n := by
  have hsp : comFsVfsRead (file.node mem) off n = _ :=
    @ElfLoader.read_spec _ file.size (fun m => (file.node m).data) mem off n
  rw [h] at hsp
  split_ifs at hsp
  rw [some.inj hsp, bytesOf, ElfLoader.bytesAt, List.length_map, List.length_range',
    ElfLoader.readCount]
  split_ifs <;> omega

theorem write_mapFlags {vmmFlags : VmmFlags} (h : comMmVmmFlagsPrivate.has vmmFlags) :
    ¬ has archMmuFlagsWrite (mapFlags vmmFlags dataFlags) := by
  have hwr : ∀ shared allocate : Bool, has archMmuFlagsWrite
      (let m := if shared then dataFlags ||| archMmuExtraFlagsShared else dataFlags
       if allocate then m ||| archMmuExtraFlagsNocopy else m) := by decide
  unfold mapFlags
  rw [if_pos ⟨.inl h, hwr (comMmVmmFlagsShared.has vmmFlags) (comMmVmmFlagsAllocate.has vmmFlags)⟩]
  cases comMmVmmFlagsShared.has vmmFlags <;> cases comMmVmmFlagsAllocate.has vmmFlags <;> decide

section

variable (h : Setting zeroPage file)

include h

theorem Setting.frame_zero : frame zeroPage ∉ framesOf file := by
  rw [frame, physPage_of_aligned h.zero_aligned h.zero_lt]
  exact h.zero_page

theorem holds_zero {f : ℕ} (hf : f ∈ framesOf file) :
    holds f [zeroPage] = 0 := by
  rw [holds_singleton, if_neg]
  rintro rfl
  exact h.zero_page hf

theorem round_file (wild : ℕ → Entry) (off k : ℕ) {f : ℕ}
    (hf : f ∈ framesOf file)
    (heq : frame (paddr zeroPage file.data wild off comMmVmmFlagsPrivate k) = f) :
    comFsPagecacheGet file.data (off / archPageSize + k) = some f ∧
      holds f [pagePhys file.data wild (off + archPageSize * k)] = 1 := by
  cases hgt : comFsPagecacheGet file.data (off / archPageSize + k) with
  | none =>
    rw [paddr, allocate_roundFlags, page_of_round, hgt] at heq
    exact absurd (heq ▸ hf) h.frame_zero
  | some f' =>
    have hlt := file.frames _ f' hgt
    rw [(paddr_present hgt (by decide) zeroPage wild).2, frame, physPage_frame hlt,
      Nat.mul_div_cancel_left _ (by decide)] at heq
    subst heq
    refine ⟨rfl, ?_⟩
    rw [pagePhys_present hgt, holds_singleton, toNat_ofNat, Nat.mod_eq_of_lt, if_pos]
    · exact Nat.mul_div_cancel_left _ (by decide)
    · unfold archPageSize
      omega

theorem extends_visit (wild : ℕ → Entry) (sp : Space) (base off k : ℕ) :
    let sp' := visit zeroPage dataFlags file.data wild base off comMmVmmFlagsPrivate sp k
    Extends (framesOf file) sp.pagetable sp'.pagetable
        (fun f => holds f [pagePhys file.data wild (off + archPageSize * k)]) ∧
      ∀ f ∈ framesOf file, holds f sp'.held =
        holds f sp.held + holds f [pagePhys file.data wild (off + archPageSize * k)] := by
  intro sp'
  have hpv : comMmVmmFlagsPrivate.has
      (roundFlags file.data comMmVmmFlagsPrivate (off + archPageSize * k)) := by
    rw [roundFlags, has_or, has_or]
    rfl
  constructor
  · refine (Extends.map (P := paddr zeroPage file.data wild off comMmVmmFlagsPrivate k) sp.pagetable
      (base + archPageSize * k) (mapFlags_and_addrMask (by decide))
      fun _ => write_mapFlags hpv).mono fun f hf => ?_
    by_cases heq : frame (paddr zeroPage file.data wild off comMmVmmFlagsPrivate k) = f
    · rw [if_pos heq, (round_file h wild off k hf heq).2]
    · rw [if_neg heq]
      exact Nat.zero_le _
  · intro f hf
    change holds f ((sp.held ++ [_]) ++ if _ then [zeroPage] else []) = _
    rw [holds_append, holds_append]
    split_ifs
    · rw [holds_zero h hf]
      rfl
    · rfl

theorem extends_visits (wild : ℕ → Entry) (sp : Space) (base off n : ℕ)
    (hx : Extends (framesOf file) pt sp.pagetable fun f => holds f sp.held) :
    let sp' := visits zeroPage dataFlags file.data wild base off comMmVmmFlagsPrivate sp n
    Extends (framesOf file) pt sp'.pagetable (fun f => holds f sp'.held) ∧
      ∀ f ∈ framesOf file, holds f sp'.held ≤ holds f sp.held + n := by
  refine Runs.foldl_range_invariant (fun i (sp' : Space) =>
    Extends (framesOf file) pt sp'.pagetable (fun f => holds f sp'.held) ∧
      ∀ f ∈ framesOf file, holds f sp'.held ≤ holds f sp.held + i) ⟨hx, fun f _ => le_refl _⟩ ?_
  rintro i sp₁ ⟨hx₁, hle⟩
  obtain ⟨hvs, hhd⟩ := extends_visit h wild sp₁ base off i
  refine ⟨hx₁.trans hvs fun f hf => (hhd f hf).ge, fun f hf => ?_⟩
  have hon : holds f [pagePhys file.data wild (off + archPageSize * i)] ≤ 1 := by
    rw [holds_singleton]
    split_ifs <;> omega
  have hle := hle f hf
  rw [hhd f hf]
  omega

theorem extends_mapLoop (sp : Space) (v : ℕ) (P : Entry) (n : ℕ)
    {flags : Entry} (hfg : flags &&& addrMask = 0#64) :
    let sp' := mapLoop zeroPage true v P flags n sp
    Extends (framesOf file) sp.pagetable sp'.pagetable (fun _ => 0) ∧
      ∀ f ∈ framesOf file, holds f sp'.held = holds f sp.held := by
  refine Runs.foldl_range_invariant (fun _ (sp' : Space) =>
    Extends (framesOf file) sp.pagetable sp'.pagetable (fun _ => 0) ∧
      ∀ f ∈ framesOf file, holds f sp'.held = holds f sp.held) ⟨.refl .., fun _ _ => rfl⟩ ?_
  rintro i sp₁ ⟨hx, hhd⟩
  refine ⟨hx.trans (.map _ _ hfg fun hme => absurd hme h.frame_zero) fun f hf => ?_,
    fun f hf => ?_⟩
  · rw [if_neg]
    rintro rfl
    exact h.frame_zero hf
  · change holds f (sp₁.held ++ [zeroPage]) = _
    rw [holds_append, holds_zero h hf]
    exact hhd f hf

end

def headTaken (phdr : Phdr) (vaddr : BitVec 64) : ℕ :=
  if NeedsHead phdr vaddr then headLen phdr vaddr else 0

structure AfterHead (newPhys : Entry) (file : File) (phdr : Phdr) (mem : ℕ → BitVec 8)
    (pt : Pagetable) (vaddr : BitVec 64) (g : Segment) : Prop where
  stage : Extends (framesOf file) pt g.space.pagetable fun f => holds f g.space.held
  held : g.space.held = []
  same : SameOn (framesOf file) mem g.mem
  start : g.vaddr = vaddr + BitVec.ofNat 64 (headTaken phdr vaddr)
  idx : g.idx = BitVec.ofNat 64 (headTaken phdr vaddr)
  fsz : g.fsz = phdr.fileSz - BitVec.ofNat 64 (headTaken phdr vaddr)
  memSz : g.memSz = phdr.memSz - BitVec.ofNat 64 (headTaken phdr vaddr)
  mapped : g.vaddrMapped → NeedsHead phdr vaddr
  page : NeedsHead phdr vaddr → ∀ va, pageNo va = pageNo vaddr.toNat →
    frame (leaf g.space.pagetable va) = newPhys.toNat / archPageSize

theorem headLen_of_needsHead (h : NeedsHead phdr vaddr) : 0 < headLen phdr vaddr := by
  have hlt : vaddr.toNat % archPageSize < archPageSize := Nat.mod_lt _ (by decide)
  have hps : phdr.fileSz.toNat ≠ 0 := by
    intro hz
    have hint := h.2
    rw [toInt_eq_toNat_cond, hz] at hint
    simp at hint
  rw [headLen, if_neg h.1]
  omega

theorem loadHead_spec (hfr : NeedsHead phdr vaddr → newPhys.toNat % archPageSize = 0 ∧
      newPhys.toNat < 2 ^ 63 ∧ newPhys.toNat / archPageSize ∉ framesOf file)
    (hg : loadHead zeroPage newPhys file phdr (enter phdr mem pt vaddr) = some g) :
    AfterHead newPhys file phdr mem pt vaddr g := by
  by_cases hnd : NeedsHead phdr vaddr
  · obtain ⟨hag, hlt, hnt⟩ := hfr hnd
    have hps := headLen_of_needsHead hnd
    have hed := (headLen_pos hps).2
    rw [loadHead_eq hnd hps hag] at hg
    obtain ⟨answer, hread, rfl⟩ := map_eq_some_iff.mp hg
    have hfm : frame newPhys = newPhys.toNat / archPageSize := by
      rw [frame, physPage_of_aligned hag hlt]
    have htk : headTaken phdr vaddr = headLen phdr vaddr := if_pos hnd
    refine ⟨?_, rfl, fun f hf k hk => ?_, ?_, ?_, ?_, ?_, fun _ => hnd, fun _ va hva => ?_⟩
    · refine (Extends.map pt (vaddr.toNat - vaddr.toNat % archPageSize)
        (mapFlags_and_addrMask (by decide)) fun hme => absurd (hfm ▸ hme) hnt).mono fun f hf => ?_
      rw [if_neg]
      · exact Nat.zero_le _
      · rintro rfl
        exact hnt (hfm ▸ hf)
    · have hby := read_length hread
      refine afterHead_outside (by omega) ?_
      have hne : newPhys.toNat / archPageSize ≠ f := fun heq => hnt (heq ▸ hf)
      unfold archPageSize at *
      omega
    · rw [htk]
      rfl
    · rw [htk]
      exact BitVec.zero_add _
    · rw [htk]
      rfl
    · rw [htk]
      rfl
    · have hpg : pageNo va = pageNo (vaddr.toNat - vaddr.toNat % archPageSize) := by
        unfold pageNo archPageSize at *
        omega
      change frame (leaf (archMmuMap pt _ newPhys _) va) = _
      rw [leaf_archMmuMap, if_pos hpg, frame, physPage_mapFlags, ← hfm, frame]
  · obtain rfl : enter phdr mem pt vaddr = g := some.inj ((if_neg hnd).symm.trans hg)
    have htk : headTaken phdr vaddr = 0 := if_neg hnd
    refine ⟨.refl .., rfl, fun _ _ _ _ => rfl, ?_, ?_, ?_, ?_, (fun h => by cases h),
      fun h => absurd h hnd⟩
    all_goals simp [enter, htk]

structure AfterFile (file : File) (phdr : Phdr) (mem : ℕ → BitVec 8) (pt : Pagetable)
    (vaddr : BitVec 64) (g : Segment) : Prop where
  stage : Extends (framesOf file) pt g.space.pagetable fun f => holds f g.space.held
  held : ∀ f ∈ framesOf file, holds f g.space.held ≤ phdr.fileSz.toNat
  same : SameOn (framesOf file) mem g.mem
  last : g.vaddrMapped → g.vaddr.toNat % archPageSize ≠ 0 →
    frame (leaf g.space.pagetable g.vaddr.toNat) ∈ framesOf file →
      0 < phdr.fileSz.toInt ∧ headLen phdr vaddr < phdr.fileSz.toNat ∧
      g.vaddr.toNat % archPageSize = tail phdr vaddr ∧ g.memSz = phdr.memSz - phdr.fileSz ∧
      comFsPagecacheGet file.data (lastPage phdr vaddr) =
        some (frame (leaf g.space.pagetable g.vaddr.toNat))

section FileStage

variable (hg : AfterHead newPhys file phdr mem pt vaddr g)
include hg

theorem afterFile_of_head
    (hnt : NeedsHead phdr vaddr → newPhys.toNat / archPageSize ∉ framesOf file) :
    AfterFile file phdr mem pt vaddr g := by
  refine ⟨hg.stage, fun f _ => ?_, hg.same, fun hmp hms hme => ?_⟩
  · rw [hg.held]
    exact Nat.zero_le _
  · have hnd := hg.mapped hmp
    have hed := (headLen_pos (headLen_of_needsHead hnd)).2
    have hpg : pageNo g.vaddr.toNat = pageNo vaddr.toNat := by
      have htk : headTaken phdr vaddr = headLen phdr vaddr := if_pos hnd
      rw [hg.start, htk, toNat_add, toNat_ofNat, Nat.add_mod_mod] at hms ⊢
      unfold pageNo archPageSize at *
      omega
    rw [hg.page hnd _ hpg] at hme
    exact absurd hme (hnt hnd)

theorem headTaken_of_pos (hfs : 0 < g.fsz.toInt) : 0 < phdr.fileSz.toInt ∧
    headTaken phdr vaddr = headLen phdr vaddr ∧ headLen phdr vaddr < phdr.fileSz.toNat := by
  have hle := headLen_le phdr vaddr
  rw [hg.fsz] at hfs
  by_cases hnd : NeedsHead phdr vaddr
  · have htk : headTaken phdr vaddr = headLen phdr vaddr := if_pos hnd
    refine ⟨hnd.2, htk, lt_of_le_of_ne hle fun heq => ?_⟩
    rw [htk, heq, BitVec.ofNat_toNat, BitVec.setWidth_eq, BitVec.sub_self] at hfs
    simp at hfs
  · have htk : headTaken phdr vaddr = 0 := if_neg hnd
    rw [htk] at hfs ⊢
    simp only [BitVec.sub_zero] at hfs
    have hms : vaddr.toNat % archPageSize = 0 := by
      by_contra hms
      exact hnd ⟨hms, hfs⟩
    have hln : headLen phdr vaddr = 0 := if_pos hms
    have hps : phdr.fileSz.toNat ≠ 0 := by
      intro hz
      rw [toInt_eq_toNat_cond, hz] at hfs
      simp at hfs
    exact ⟨hfs, hln.symm, by omega⟩

theorem afterFile_of_visits (h : Setting zeroPage file) (wild : ℕ → Entry) (hfs : 0 < g.fsz.toInt)
    (hbs : g.vaddr.toNat % archPageSize = 0)
    (hfn : g.fsz.toNat = phdr.fileSz.toNat - headLen phdr vaddr) :
    AfterFile file phdr mem pt vaddr { g with
      space := visits zeroPage dataFlags file.data wild g.vaddr.toNat
        (phdr.off.toNat + headLen phdr vaddr) comMmVmmFlagsPrivate g.space
        (pagesFor (phdr.fileSz.toNat - headLen phdr vaddr))
      vaddr := g.vaddr + g.fsz
      memSz := g.memSz - g.fsz
      vaddrMapped := true } := by
  obtain ⟨hps, htk, hlt⟩ := headTaken_of_pos hg hfs
  obtain ⟨hx, hle⟩ := extends_visits h wild g.space g.vaddr.toNat
    (phdr.off.toNat + headLen phdr vaddr) (pagesFor (phdr.fileSz.toNat - headLen phdr vaddr)) hg.stage
  have hed : g.vaddr + g.fsz = vaddr + phdr.fileSz := by
    rw [hg.start, hg.fsz]
    bv_omega
  have hrs : g.memSz - g.fsz = phdr.memSz - phdr.fileSz := by
    rw [hg.memSz, hg.fsz]
    bv_omega
  refine ⟨hx, fun f hf => (hle f hf).trans ?_, hg.same, fun _ hms hme => ?_⟩
  · rw [hg.held, holds, List.map_nil, List.count_nil]
    unfold pagesFor archPageSize
    omega
  · have hsu : (g.vaddr + g.fsz).toNat = (g.vaddr.toNat + g.fsz.toNat) % 2 ^ 64 := toNat_add ..
    have hrd : pagesFor (phdr.fileSz.toNat - headLen phdr vaddr) =
        (phdr.fileSz.toNat - headLen phdr vaddr) / archPageSize + 1 := by
      change (g.vaddr + g.fsz).toNat % archPageSize ≠ 0 at hms
      unfold pagesFor archPageSize at *
      omega
    have hpg : pageNo (g.vaddr + g.fsz).toNat = pageNo (g.vaddr.toNat +
        archPageSize * ((phdr.fileSz.toNat - headLen phdr vaddr) / archPageSize)) := by
      unfold pageNo archPageSize at *
      omega
    rw [hrd, visits_succ, leaf_visit, if_pos hpg, entryOf, frame, physPage_mapFlags] at hme ⊢
    refine ⟨hps, hlt, ?_, hrs, (round_file h wild _ _ hme rfl).1⟩
    rw [hed, toNat_add, tail]
    unfold archPageSize
    omega

theorem loadFile_spec (h : Setting zeroPage file) (hrn : phdr.off.toNat + phdr.fileSz.toNat < 2 ^ 64)
    (hnt : NeedsHead phdr vaddr → newPhys.toNat / archPageSize ∉ framesOf file)
    (hg' : loadFile zeroPage file wild phdr fuel g = some g') : AfterFile file phdr mem pt vaddr g' := by
  rw [loadFile] at hg'
  split_ifs at hg' with hfs
  · obtain ⟨hps, htk, hlt⟩ := headTaken_of_pos hg hfs
    have hbg := (headLen_end phdr vaddr).resolve_right hlt.ne
    have hfn : g.fsz.toNat = phdr.fileSz.toNat - headLen phdr vaddr := by
      rw [hg.fsz, htk]
      exact toNat_sub_ofNat hlt.le
    have hof : (phdr.off + g.idx).toNat = phdr.off.toNat + headLen phdr vaddr := by
      rw [hg.idx, htk]
      exact toNat_add_ofNat (by omega)
    have hbs : g.vaddr.toNat % archPageSize = 0 := by
      rw [hg.start, htk, toNat_add, toNat_ofNat, Nat.add_mod_mod]
      unfold archPageSize at *
      omega
    obtain ⟨r, hmm, rfl⟩ := map_eq_some_iff.mp hg'
    rw [hof, hfn] at hmm
    by_cases hft : phdr.off.toNat + headLen phdr vaddr +
        archPageSize * pagesFor (phdr.fileSz.toNat - headLen phdr vaddr) < 2 ^ 64
    · rw [mmap_eq zeroPage dataFlags file wild g.space fuel (by decide) hbs hft] at hmm
      split_ifs at hmm
      obtain rfl := some.inj hmm
      exact afterFile_of_visits hg h wild hfs hbs hfn
    · rw [comFsTmpfsMmap, if_neg (by decide), mmapLoop_wraps (by omega) (by omega) fuel _ _
        (by omega) rfl] at hmm
      cases hmm
  · obtain rfl := some.inj hg'
    exact afterFile_of_head hg hnt

end FileStage

theorem clear_eq {va n f k : ℕ} (hf : f ≠ 0) (hk : k < archPageSize) (hms : va % archPageSize ≠ 0)
    (hn : n ≤ archPageSize - va % archPageSize) :
    kmemset mem (archMmuGetPhysical pt va) n (archPageSize * f + k) =
      if frame (leaf pt va) = f ∧ va % archPageSize ≤ k ∧ k < va % archPageSize + n then 0
      else mem (archPageSize * f + k) := by
  rw [kmemset, archMmuGetPhysical]
  refine if_congr ?_ rfl rfl
  split_ifs with hnl
  · have hfm : frame (leaf pt va) = 0 := by
      rw [frame, physPage, hnl]
      rfl
    unfold archPageSize at *
    omega
  · rw [← physPage_dvd]
    unfold archPageSize at *
    omega

theorem zeroFill_spec (h : Setting zeroPage file) (hg : AfterFile file phdr mem pt vaddr g)
    (hsr : Spared file phdr vaddr mem) :
    Unchanged file mem (zeroFill g).mem ∧ (zeroFill g).space = g.space := by
  have hsm := unchanged_of_sameOn hg.same
  rw [zeroFill]
  split_ifs with hcl hmp
  · refine ⟨fun q hq f hf => ?_, rfl⟩
    have hfl : f ∈ framesOf file := ⟨_, hf⟩
    have hk : q % archPageSize < archPageSize := Nat.mod_lt _ (by decide)
    dsimp only
    rw [clear_eq (fun hz => h.null (hz ▸ hfl)) hk hcl.1 (Nat.min_le_right _ _)]
    split_ifs with hin
    · obtain ⟨rfl, hlw, hhg⟩ := hin
      obtain ⟨hps, hlt, htl, hrs, hls⟩ := hg.last hmp hcl.1 hfl
      rw [hrs] at hcl hhg
      rw [htl] at hcl hlw hhg
      exact (hsr hps hlt hcl.1 hcl.2 q hq _ hls hf hlw (by omega)).symm
    · exact hsm q hq f hf
  · exact ⟨hsm, rfl⟩
  · exact ⟨hsm, rfl⟩

theorem loadRest_spec (h : Setting zeroPage file) (hg' : loadRest zeroPage g = some g') :
    g'.mem = g.mem ∧ Extends (framesOf file) g.space.pagetable g'.space.pagetable (fun _ => 0) ∧
      ∀ f ∈ framesOf file, holds f g'.space.held = holds f g.space.held := by
  rw [loadRest] at hg'
  split_ifs at hg'
  · obtain ⟨r, hma, rfl⟩ := map_eq_some_iff.mp hg'
    cases hma
    exact ⟨rfl, extends_mapLoop h g.space _ _ _ (mapFlags_and_addrMask (by decide))⟩
  · cases hg'
    exact ⟨rfl, .refl .., fun _ _ => rfl⟩

theorem load_unchanged {t : ℕ} (h : Setting zeroPage file) (hs : Guarded (framesOf file) s)
    (hal : LoadAllowed file s phdr vaddr newPhys)
    (hld : load zeroPage newPhys file wild phdr fuel s t vaddr = some s') :
    Guarded (framesOf file) s' ∧ Unchanged file s.mem s'.mem := by
  obtain ⟨pt, hpt, hld⟩ := bind_eq_some_iff.mp hld
  obtain ⟨a, hh, hld⟩ := bind_eq_some_iff.mp hld
  obtain ⟨g, hsg, hld⟩ := bind_eq_some_iff.mp hld
  obtain ⟨a', hhl, hld⟩ := bind_eq_some_iff.mp hld
  cases hld
  have hta : MetaKept (framesOf file) s.pageMeta a ∧
      (∀ f ∈ framesOf file, a.entries f = s.pageMeta.entries f) ∧
      (NeedsHead phdr vaddr → newPhys.toNat / archPageSize ∉ framesOf file) := by
    rw [takeHead] at hh
    split_ifs at hh with hnd
    · obtain ⟨hnt, hkp, hsm⟩ := hs.takeFree hh
      exact ⟨hkp, hsm, fun _ => hnt⟩
    · cases hh
      exact ⟨.refl .., fun _ _ => rfl, fun h => absurd h hnd⟩
  obtain ⟨hkp, hen, hnt⟩ := hta
  obtain ⟨g₂, hsg, hrs⟩ := bind_eq_some_iff.mp hsg
  obtain ⟨g₁, hg₁, hg₂⟩ := bind_eq_some_iff.mp hsg
  have haf₁ := loadHead_spec (fun hnd => ⟨(hal.fresh hnd).aligned, by
    have hlt := (hal.fresh hnd).lt
    unfold archPageSize at hlt
    omega, hnt hnd⟩) hg₁
  have haf₂ := loadFile_spec haf₁ h hal.inRange hnt hg₂
  obtain ⟨hme, hsc⟩ := zeroFill_spec h haf₂ hal.spared
  obtain ⟨hme', hx, hhd⟩ := loadRest_spec h hrs
  rw [hsc] at hx hhd
  obtain ⟨hkp', hnm⟩ := holds_spec (F := framesOf file) hhl
    (fun f hf => by rw [hkp.reservedStart]; exact (hs.taken f hf).1)
    (fun f hf => by
      have hct := hal.count f hf
      have hle := haf₂.held f hf
      rw [hen f hf, hhd f hf]
      omega)
  refine ⟨hs.extend hpt _ (hkp.trans hkp') (haf₂.stage.trans hx fun f _ => le_refl _)
    fun f hf => ?_, ?_⟩
  · rw [hnm f hf, hen f hf, hhd f hf]
    exact le_refl _
  · rwa [hme']

/-- A segment of the file is loaded into an address space, or a user thread stores a byte. `newPhys`
is what the allocator returns if it is called, and `wild` what the stack holds. -/
inductive Event where
  | load (t : ℕ) (phdr : Phdr) (vaddr : BitVec 64) (newPhys : Entry) (wild : ℕ → Entry) (fuel : ℕ)
  | store (i va : ℕ) (b : BitVec 8) (newPhys : Entry)

def next (zeroPage : Entry) (file : File) (s : System) : Event → Option System
  | .load t phdr vaddr newPhys wild fuel => load zeroPage newPhys file wild phdr fuel s t vaddr
  | .store i va b newPhys => userStore s i va b newPhys

def Allowed (file : File) (s : System) : Event → Prop
  | .load _ phdr vaddr newPhys _ _ => LoadAllowed file s phdr vaddr newPhys
  | .store i va _ newPhys => va < 2 ^ 47 ∧ ∀ pt e c, s.tables[i]? = some pt →
      userEntry pt va = some e → ¬ has archMmuFlagsWrite e →
      x8664MmuFaultIsr pt (BitVec.ofNat 64 va) = some c → Allocates s c →
        Fresh s.pageMeta newPhys c.numPages

/-- No run of loads and stores changes what is read from the file. -/
theorem executed_file_unmodified (zeroPage : Entry) (file : File) (s₀ s : System)
    (hsetting : Setting zeroPage file) (hstart : Guarded (framesOf file) s₀)
    (hrun : Runs.Reaches (next zeroPage file) (Allowed file) s₀ s) (off n : ℕ) :
    comFsVfsRead (file.node s.mem) off n = comFsVfsRead (file.node s₀.mem) off n := by
  have hiv : Guarded (framesOf file) s ∧ Unchanged file s₀.mem s.mem := by
    refine hrun.invariant (fun s => Guarded (framesOf file) s ∧ Unchanged file s₀.mem s.mem)
      ⟨hstart, fun _ _ _ _ => rfl⟩ ?_
    rintro s₁ ev s₂ ⟨hgr, hun⟩ hal hnext
    have hst : Guarded (framesOf file) s₂ ∧ Unchanged file s₁.mem s₂.mem := by
      cases ev with
      | load t phdr vaddr newPhys wild fuel =>
        exact load_unchanged hsetting hgr hal hnext
      | store i va b newPhys =>
        obtain ⟨hgr', hsm⟩ := hgr.userStore hal.1 hal.2 hnext
        exact ⟨hgr', unchanged_of_sameOn hsm⟩
    exact ⟨hst.1, fun q hq f hf => (hst.2 q hq f hf).trans (hun q hq f hf)⟩
  exact read_eq hiv.2 off n

theorem script_setting : Setting 0x5000 script where
  zero_aligned := by decide
  zero_lt := by decide
  zero_page := by
    rintro ⟨i, hi⟩
    exact absurd (scriptPages_frame hi) (by decide)
  null := by
    rintro ⟨i, hi⟩
    exact absurd (scriptPages_frame hi) (by decide)

theorem script_guarded : Guarded (framesOf script) scriptSystem := by
  have hlf : ∀ va, leaf (RadixTable.blank 0 3) va = 0 := fun va =>
    RadixTable.getD_lookup_blank 0 _
  have hbl : ∀ f va, ¬ Shows f (leaf (RadixTable.blank 0 3) va) := by
    rintro f va ⟨hpr, -⟩
    rw [hlf] at hpr
    exact absurd hpr (by decide)
  refine ⟨by decide, by decide, ?_, ?_, ?_⟩
  · rintro f ⟨i, hi⟩
    rw [scriptPages_frame hi]
    decide
  · rintro f ⟨i, hi⟩
    have hsw : shown (RadixTable.blank 0 3) f = 0 := by
      refine Finset.card_eq_zero.mpr (Finset.eq_empty_of_forall_notMem fun n hn => ?_)
      exact hbl f _ (mem_pagesOf.mp hn).2
    have hno : shownIn scriptSystem.tables f = 0 := by
      rw [shownIn, show scriptSystem.tables = [RadixTable.blank 0 3] from rfl, List.map_singleton,
        List.sum_singleton, hsw]
    rw [hno, scriptPages_frame hi]
    decide
  · rintro f - pt hpt va - hsh
    rw [List.mem_singleton.mp hpt] at hsh
    exact absurd hsh (hbl f va)

/-- After the call the last bytes of the file are gone. -/
theorem executed_file_modified : Guarded (framesOf script) scriptSystem ∧
    (comFsVfsRead (script.node scriptSystem.mem) 120 8).map bytesOf = some (List.replicate 8 7) ∧
    (ElfLoader.comSysElf64Load .file 128 (contents script)
      (loadInto 0x5000 (fun _ => 0x6000) script (fun _ => 0) 2 0) 0
      scriptSystem ⟨0, 0, 0, 0, []⟩).map (fun r =>
        (r.1, (comFsVfsRead (script.node r.2.state.mem) 120 8).map bytesOf)) =
      some (.ok, some (List.replicate 8 0)) := by
  refine ⟨script_guarded, ?_, ?_⟩
  · decide +kernel
  · decide +kernel

theorem executed_file_unmodified_store : ∃ s : System, s.mem 0x6000 = 9 ∧
    comFsVfsRead (script.node s.mem) 0 128 = comFsVfsRead (script.node scriptSystem.mem) 0 128 := by
  let image : Event := .load 0 ⟨1, 0, 0x400000, 128, 128⟩ 0x400000 0x6000 (fun _ => 0) 2
  have hrun : ((next 0x5000 script scriptSystem image).bind fun s =>
      next 0x5000 script s (.store 0 0x400000 9 0x6000)).map (·.mem 0x6000) = some 9 := by
    decide +kernel
  have hflt : (next 0x5000 script scriptSystem image).map (fun s =>
      (s.tables[0]?.bind fun pt => (x8664MmuFaultIsr pt (BitVec.ofNat 64 0x400000)).map (·.numPages),
        (s.pageMeta.entries 6).state)) =
      some (some 1, .free) := by
    decide +kernel
  obtain ⟨s₂, hs₂, hstr⟩ := map_eq_some_iff.mp hrun
  obtain ⟨s₁, hs₁, hs₂⟩ := bind_eq_some_iff.mp hs₂
  rw [hs₁] at hflt
  obtain ⟨hpgs, hfe⟩ := Prod.mk.inj (some.inj hflt)
  have him : Allowed script scriptSystem image := by
    refine ⟨fun hnd => absurd hnd.1 (by decide), by decide, ?_,
      fun _ _ _ hrs => absurd hrs (by decide)⟩
    rintro f ⟨i, hi⟩
    rw [scriptPages_frame hi]
    decide
  have hso : Allowed script s₁ (.store 0 0x400000 9 0x6000) := by
    refine ⟨by decide, fun pt e c hpt _ _ hc _ => ?_⟩
    rw [hpt, bind_some, hc] at hpgs
    have hon : c.numPages = 1 := some.inj hpgs
    rw [hon]
    refine ⟨by decide, by decide, fun k hk => ?_⟩
    rw [Nat.lt_one_iff.mp hk]
    exact hfe
  exact ⟨s₂, hstr, executed_file_unmodified 0x5000 script scriptSystem s₂ script_setting
    script_guarded (.step (.step .start him hs₁) hso hs₂) 0 128⟩

end ExecutedFile
