import SalernosKernel.BitMask
import SalernosKernel.ElfStack
import SalernosKernel.Runs

/-! # The frame of a signal handler

The signal functions of `platform/x86-64/context.c`, the end of `com_ipc_signal_dispatch` where a
handler is entered, and `com_sys_syscall_sigreturn`. A call leaves a record of what it accesses. -/
namespace SignalFrame

open ByteMemory List
open ElfStack (Ptr Mem padded toNat_mask)
open BitVec (ofNat toNat_add toNat_ofNat toNat_sub)
open Function (update)

def ARCH_MMU_KERNELSPACE_START : ℕ := 0xffff800000000000

structure Layout where
  size : ℕ
  signo : ℕ
  uc : ℕ
  gregs : ℕ
  sigmask : ℕ
  signo_le : signo + 4 ≤ uc
  uc_le : uc ≤ gregs
  gregs_le : gregs + 8 * 23 ≤ sigmask
  sigmask_le : sigmask + 128 ≤ size
  small : size ≤ 2 ^ 32

abbrev Reg := Fin 18

def RDI : Reg := 8
def RSI : Reg := 9
def RDX : Reg := 12
def RSP : Reg := 15
def RIP : Reg := 16
def EFL : Reg := 17

structure State where
  regs : Reg → BitVec 64
  cs : BitVec 64
  ss : BitVec 64
  masked : BitVec 64
  mem : Mem
  accesses : List (Ptr × ℕ)

structure Sigaction where
  saAction : Ptr
  saRestorer : Ptr
  saMask : BitVec 64
  nodefer : Bool

section Code

variable (L : Layout)

def archContextAllocSigframe (rsp : Ptr) : Ptr :=
  (((rsp - 128#64) &&& ~~~0xF#64) - ofNat 64 L.size) &&& ~~~0xF#64

def greg (sframe : Ptr) (r : Reg) : Ptr := sframe + ofNat 64 (L.gregs + 8 * r)

def sigmask (sframe : Ptr) : Ptr := sframe + ofNat 64 L.sigmask

def archContextSetupSigframe (sframe : Ptr) (regs : Reg → BitVec 64) : List (Store 64) :=
  (List.finRange 18).map fun r => (greg L sframe r, word (regs r))

def archContextSetupSigrestore (stack restorer : Ptr) : Store 64 := (stack - 8#64, word restorer)

def archContextSignalTrampoline (sframe stack handler : Ptr) (sig : Fin 64)
    (regs : Reg → BitVec 64) : Reg → BitVec 64 :=
  update (update (update (update (update regs
    RIP handler) RSP stack) RDI (ofNat 64 (sig + 1))) RSI sframe)
    RDX (sframe + ofNat 64 L.uc)

def fields (sa : Sigaction) (sframe : Ptr) (s : State) : List (Store 64) :=
  (sigmask L sframe, word s.masked) :: archContextSetupSigframe L sframe s.regs ++
    [archContextSetupSigrestore sframe sa.saRestorer]

def stores (sa : Sigaction) (sig : Fin 64) (sframe : Ptr) (s : State) : List (Store 64) :=
  (sframe, List.replicate L.size 0) ::
    (sframe + ofNat 64 L.signo, (word (ofNat 64 (sig + 1))).take 4) ::
      fields L sa sframe s

def enterHandler (sa : Sigaction) (sig : Fin 64) (s : State) : State :=
  let sframe := archContextAllocSigframe L (s.regs RSP)
  let masked := s.masked ||| sa.saMask
  { s with
    regs := archContextSignalTrampoline L sframe (sframe - 8#64) sa.saAction sig s.regs
    masked := if sa.nodefer then masked else BitMask.insert masked sig
    mem := writeAll s.mem (stores L sa sig sframe s)
    accesses := (stores L sa sig sframe s).map fun c => (c.1, c.2.length) }

def comSysSyscallSigreturn (s : State) : State :=
  let sframe := s.regs RSP
  { s with
    regs := fun r => readWord s.mem (greg L sframe r)
    masked := readWord s.mem (sigmask L sframe)
    accesses := (List.finRange 18).map (fun r => (greg L sframe r, 8)) ++ [(sigmask L sframe, 8)] }

end Code

def Confined (s : State) : Prop := ∀ c ∈ s.accesses, ∀ i < c.2,
  (c.1 + ofNat 64 i).toNat < ARCH_MMU_KERNELSPACE_START

def Unprivileged (rflags : BitVec 64) : Prop :=
  rflags.getLsbD 9 = true ∧ rflags.getLsbD 12 = false ∧ rflags.getLsbD 13 = false

variable {L : Layout} {sa : Sigaction} {sig : Fin 64} {s : State}

theorem span_below {p : Ptr} {n : ℕ} (hn : 0 < n) :
    (∀ i < n, (p + ofNat 64 i).toNat < ARCH_MMU_KERNELSPACE_START) ↔
      p.toNat + n ≤ ARCH_MMU_KERNELSPACE_START := by
  simp only [toNat_add, toNat_ofNat, ARCH_MMU_KERNELSPACE_START]
  constructor
  · intro h
    by_contra hover
    have hed := h (0xffff800000000000 - p.toNat) (by omega)
    omega
  · intro h i hi
    omega

theorem sframe_bounds {rsp : Ptr} (h : 144 + padded L.size ≤ rsp.toNat) :
    8 ≤ (archContextAllocSigframe L rsp).toNat ∧
      (archContextAllocSigframe L rsp).toNat + L.size + 128 ≤ rsp.toNat := by
  rw [padded] at h
  rw [archContextAllocSigframe, toNat_mask, toNat_sub, toNat_mask, toNat_sub,
    toNat_ofNat, toNat_ofNat]
  omega

theorem sframe_confined_iff {rsp : Ptr} : 8 ≤ (archContextAllocSigframe L rsp).toNat ∧
      (archContextAllocSigframe L rsp).toNat + L.size ≤ ARCH_MMU_KERNELSPACE_START ↔
    144 + padded L.size ≤ rsp.toNat ∧ rsp.toNat < ARCH_MMU_KERNELSPACE_START + 144 := by
  rw [archContextAllocSigframe, toNat_mask, toNat_sub, toNat_mask, toNat_sub,
    toNat_ofNat, toNat_ofNat, padded, ARCH_MMU_KERNELSPACE_START]
  omega

theorem mem_fields {sframe : Ptr} {c : Store 64} (hc : c ∈ fields L sa sframe s) :
    (∃ i, c.1 = sframe + ofNat 64 i ∧ c.2.length = 8 ∧ i + 8 ≤ L.size) ∨
      c = (sframe - 8#64, word sa.saRestorer) := by
  have hgr := L.gregs_le
  have hms := L.sigmask_le
  rw [fields, mem_append, mem_cons, mem_singleton] at hc
  rcases hc with (rfl | hc) | rfl
  · exact .inl ⟨L.sigmask, rfl, length_word _, by omega⟩
  · obtain ⟨r, -, rfl⟩ := mem_map.mp hc
    exact .inl ⟨_, rfl, length_word _, by omega⟩
  · exact .inr rfl

theorem mem_stores {sframe : Ptr} {c : Store 64} (hc : c ∈ stores L sa sig sframe s) :
    (∃ i, c.1 = sframe + ofNat 64 i ∧ i + c.2.length ≤ L.size) ∨
      c = (sframe - 8#64, word sa.saRestorer) := by
  have hsg := L.signo_le
  have huc := L.uc_le
  have hgr := L.gregs_le
  have hms := L.sigmask_le
  rw [stores, mem_cons, mem_cons] at hc
  rcases hc with rfl | rfl | hc
  · exact .inl ⟨0, (BitVec.add_zero _).symm, by simp⟩
  · exact .inl ⟨L.signo, rfl, by simp; omega⟩
  · rcases mem_fields hc with ⟨i, hi, hln, hle⟩ | hc
    · exact .inl ⟨i, hi, by omega⟩
    · exact .inr hc

theorem enterHandler_confined_iff : Confined (enterHandler L sa sig s) ↔
    144 + padded L.size ≤ (s.regs RSP).toNat ∧
      (s.regs RSP).toNat < ARCH_MMU_KERNELSPACE_START + 144 := by
  rw [← sframe_confined_iff]
  have hsz : 0 < L.size := by
    have := L.sigmask_le
    omega
  have hbc : ∀ p : Ptr, (p - 8#64).toNat + 8 ≤ ARCH_MMU_KERNELSPACE_START ↔
      8 ≤ p.toNat ∧ p.toNat ≤ ARCH_MMU_KERNELSPACE_START := by
    intro p
    rw [toNat_sub, toNat_ofNat, ARCH_MMU_KERNELSPACE_START]
    omega
  constructor
  · intro h
    have hfm := h _ (mem_map_of_mem mem_cons_self)
    have hls := h _ (mem_map_of_mem (mem_cons_of_mem _ (mem_cons_of_mem _
      (mem_append_right _ mem_cons_self))))
    rw [length_replicate, span_below hsz] at hfm
    rw [archContextSetupSigrestore, length_word, span_below (by omega), hbc] at hls
    exact ⟨hls.1, hfm⟩
  · rintro ⟨hfs, hfm⟩ c hc i hi
    obtain ⟨d, hd, rfl⟩ := mem_map.mp hc
    revert i
    rcases mem_stores hd with ⟨j, hj, hle⟩ | rfl
    · intro i hi
      rw [hj, BitVec.add_assoc, ← BitVec.ofNat_add]
      exact (span_below hsz).mpr hfm (j + i) (by omega)
    · rw [length_word, span_below (by omega), hbc]
      omega

theorem sigreturn_confined_iff : Confined (comSysSyscallSigreturn L s) ↔
    (∀ r, (greg L (s.regs RSP) r).toNat + 8 ≤ ARCH_MMU_KERNELSPACE_START) ∧
      (sigmask L (s.regs RSP)).toNat + 8 ≤ ARCH_MMU_KERNELSPACE_START := by
  have hps : 0 < 8 := by omega
  rw [Confined, comSysSyscallSigreturn, forall_mem_append, forall_mem_map, forall_mem_singleton]
  simp only [mem_finRange, forall_const, span_below hps]

/-- Both calls stay out of the kernel's half exactly for the stack pointers between the bounds, and
`sigreturn` keeps the privileges exactly if the frame's flags do. -/
theorem signal_frames_confined_iff (L : Layout) (sa : Sigaction) (sig : Fin 64) (s : State) :
    (Confined (enterHandler L sa sig s) ↔ 144 + padded L.size ≤ (s.regs RSP).toNat ∧
      (s.regs RSP).toNat < ARCH_MMU_KERNELSPACE_START + 144) ∧
    (Confined (comSysSyscallSigreturn L s) ∧ (comSysSyscallSigreturn L s).cs = s.cs ∧
        (comSysSyscallSigreturn L s).ss = s.ss ∧
        Unprivileged ((comSysSyscallSigreturn L s).regs EFL) ↔
      (∀ r, (greg L (s.regs RSP) r).toNat + 8 ≤ ARCH_MMU_KERNELSPACE_START) ∧
        (sigmask L (s.regs RSP)).toNat + 8 ≤ ARCH_MMU_KERNELSPACE_START ∧
        Unprivileged (readWord s.mem (greg L (s.regs RSP) EFL))) := by
  apply And.intro enterHandler_confined_iff
  have hrg : (comSysSyscallSigreturn L s).regs EFL = readWord s.mem (greg L (s.regs RSP) EFL) := rfl
  rw [sigreturn_confined_iff, hrg, and_assoc]
  simp only [comSysSyscallSigreturn, true_and]

def sampleLayout : Layout :=
  ⟨552, 0, 128, 168, 424, by decide, by decide, by decide, by decide, by decide⟩

def sampleAction : Sigaction := ⟨0x400000, 0x401000, 0, false⟩

def sampleState (rsp : Ptr) : State :=
  ⟨update (fun _ => 0) RSP rsp, 0x23, 0x1b, 0, fun _ => 0xff, []⟩

/-- A handler's frame is written to the kernel's half; flags from user memory have I/O privilege
level 3. -/
theorem signal_frames_not_confined :
    ¬ Confined (enterHandler sampleLayout sampleAction 9 (sampleState 0xffff800000001000)) ∧
      ¬ Unprivileged ((comSysSyscallSigreturn sampleLayout (sampleState 0x1000)).regs EFL) := by
  constructor
  · rw [enterHandler_confined_iff]
    exact fun h => absurd h.2 (by decide)
  · intro h
    exact absurd h.2.1 (by decide)

structure Frame where
  regs : Reg → BitVec 64
  masked : BitVec 64
  sframe : Ptr

structure Nested where
  now : State
  frames : List Frame

/-- Between the calls the program, or the innermost handler, does what it likes. -/
inductive Event where
  | dispatch (sa : Sigaction) (sig : Fin 64)
  | user (regs : Reg → BitVec 64) (masked : BitVec 64) (mem : Mem)
  | sigreturn

def next (L : Layout) (s : Nested) : Event → Option Nested
  | .dispatch sa sig => some ⟨enterHandler L sa sig s.now,
      ⟨s.now.regs, s.now.masked, archContextAllocSigframe L (s.now.regs RSP)⟩ :: s.frames⟩
  | .user regs masked mem => some { s with now := { s.now with regs, masked, mem } }
  | .sigreturn => if s.frames = [] then none else some ⟨comSysSyscallSigreturn L s.now, s.frames.tail⟩

/-- There is room for a frame below the stack pointer, and that is not above the frame of the
handler. -/
def Fits (L : Layout) (s : Nested) : Prop :=
  144 + padded L.size ≤ (s.now.regs RSP).toNat ∧
    ∀ f ∈ s.frames.head?, (s.now.regs RSP).toNat ≤ f.sframe.toNat

/-- Handlers are entered with the stack pointer 8 below their frame. They write nothing above it and
come to `sigreturn` with the restorer's address popped. -/
def Allowed (L : Layout) (s : Nested) : Event → Prop
  | .dispatch _ _ => Fits L s
  | .user _ _ mem => ∀ f ∈ s.frames.head?, ∀ a, f.sframe.toNat ≤ a.toNat → mem a = s.now.mem a
  | .sigreturn => ∀ f ∈ s.frames.head?, s.now.regs RSP = f.sframe

structure Kept (L : Layout) (m : Mem) (f : Frame) : Prop where
  regs : ∀ r, readWord m (greg L f.sframe r) = f.regs r
  masked : readWord m (sigmask L f.sframe) = f.masked
  inside : f.sframe.toNat + L.size ≤ 2 ^ 64

structure Invariant (L : Layout) (s : Nested) : Prop where
  kept : ∀ f ∈ s.frames, Kept L s.now.mem f
  sorted : s.frames.Pairwise fun f g => f.sframe.toNat ≤ g.sframe.toNat

variable {n n' : Nested} {m m' : Mem} {f : Frame} {e : Event}

theorem Kept.of_above (h : Kept L m f) (hm : ∀ a, f.sframe.toNat ≤ a.toNat → m' a = m a) :
    Kept L m' f := by
  have hgr := L.gregs_le
  have hms := L.sigmask_le
  have hin := h.inside
  have hwr : ∀ i, i + 8 ≤ L.size → readWord m' (f.sframe + ofNat 64 i) =
      readWord m (f.sframe + ofNat 64 i) := by
    intro i hi
    apply readWord_congr
    intro k hk
    apply hm
    simp only [toNat_add, toNat_ofNat]
    omega
  refine ⟨fun r => ?_, ?_, hin⟩
  · rw [← h.regs r]
    exact hwr _ (by omega)
  · rw [← h.masked]
    exact hwr _ (by omega)

theorem mem_enterHandler (h : 144 + padded L.size ≤ (s.regs RSP).toNat) {a : Ptr}
    (ha : (s.regs RSP).toNat ≤ a.toNat + 128) : (enterHandler L sa sig s).mem a = s.mem a := by
  obtain ⟨hfs, hls⟩ := sframe_bounds h
  apply writeAll_of_forall_le
  intro c hc
  rcases mem_stores hc with ⟨i, hi, hle⟩ | rfl
  · rw [hi, toNat_sub, toNat_add, toNat_ofNat]
    omega
  · rw [length_word, toNat_sub, toNat_sub, toNat_ofNat]
    omega

theorem mem_sigreturn : (comSysSyscallSigreturn L s).mem = s.mem := by
  rw [comSysSyscallSigreturn]

theorem fields_spare (sframe : Ptr) : (fields L sa sframe s).Pairwise Spares := by
  have hgr := L.gregs_le
  have hms := L.sigmask_le
  have hsm := L.small
  have hbc : sframe - 8#64 = sframe + ofNat 64 (2 ^ 64 - 8) := by
    rw [BitVec.sub_eq_add_neg]
    rfl
  rw [fields, archContextSetupSigrestore, hbc, pairwise_append, pairwise_cons]
  refine ⟨⟨?_, ?_⟩, pairwise_singleton _ _, ?_⟩
  · intro c hc
    obtain ⟨r, -, rfl⟩ := mem_map.mp hc
    apply spares_of_offsets <;> simp only [length_word] <;> omega
  · rw [archContextSetupSigframe, pairwise_map]
    apply (pairwise_lt_finRange 18).imp
    intro r r' hr
    apply spares_of_offsets <;> simp only [length_word] <;> omega
  · intro c hc d hd
    rw [mem_singleton] at hd
    subst hd
    rcases mem_cons.mp hc with rfl | hc
    · apply spares_of_offsets <;> simp only [length_word] <;> omega
    · obtain ⟨r, -, rfl⟩ := mem_map.mp hc
      apply spares_of_offsets <;> simp only [length_word] <;> omega

theorem kept_enterHandler (h : 144 + padded L.size ≤ (s.regs RSP).toNat) :
    Kept L (enterHandler L sa sig s).mem
      ⟨s.regs, s.masked, archContextAllocSigframe L (s.regs RSP)⟩ := by
  have hbn := sframe_bounds h
  have hfl : ∀ p x, (p, word x) ∈ fields L sa (archContextAllocSigframe L (s.regs RSP)) s →
      readWord (enterHandler L sa sig s).mem p = x := by
    intro p x hp
    exact (holds_writeAll (fields_spare _) hp (by simp)).readWord_eq
  refine ⟨fun r => hfl _ _ ?_, hfl _ _ ?_, ?_⟩
  · exact mem_append_left _ (mem_cons_of_mem _ (mem_map_of_mem (mem_finRange r)))
  · exact mem_cons_self
  · change (archContextAllocSigframe L (s.regs RSP)).toNat + _ ≤ _
    omega

theorem Invariant.next (h : Invariant L n) (hok : Allowed L n e)
    (hn : next L n e = some n') : Invariant L n' := by
  cases e with
  | dispatch sa sig =>
    cases hn
    have hbn := sframe_bounds hok.1
    have hbl : ∀ f ∈ n.frames, (n.now.regs RSP).toNat ≤ f.sframe.toNat := by
      intro f hf
      obtain ⟨g, gs, hfr⟩ := exists_cons_of_ne_nil (ne_nil_of_mem hf)
      have hsr := h.sorted
      have htp := hok.2 g (by rw [hfr]; rfl)
      rw [hfr] at hf hsr
      rcases mem_cons.mp hf with rfl | hf
      · exact htp
      · exact htp.trans ((pairwise_cons.mp hsr).1 f hf)
    refine ⟨forall_mem_cons.mpr ⟨kept_enterHandler hok.1, fun f hf => ?_⟩,
      pairwise_cons.mpr ⟨fun f hf => ?_, h.sorted⟩⟩
    · apply (h.kept f hf).of_above
      intro a ha
      exact mem_enterHandler hok.1 (by have := hbl f hf; omega)
    · have := hbl f hf
      dsimp only
      omega
  | user regs masked mem =>
    cases hn
    refine ⟨fun f hf => (h.kept f hf).of_above fun a ha => ?_, h.sorted⟩
    obtain ⟨g, gs, hfr⟩ := exists_cons_of_ne_nil (ne_nil_of_mem hf)
    have hsr := h.sorted
    rw [hfr] at hsr hf
    apply hok g (by rw [hfr]; rfl)
    rcases mem_cons.mp hf with rfl | hf
    · exact ha
    · exact ((pairwise_cons.mp hsr).1 f hf).trans ha
  | sigreturn =>
    rw [SignalFrame.next] at hn
    split_ifs at hn
    rw [← Option.some.inj hn]
    refine ⟨fun f hf => ?_, h.sorted.tail⟩
    rw [mem_sigreturn]
    exact h.kept f (mem_of_mem_tail hf)

/-- Each `sigreturn` restores what was in effect before the dispatch it belongs to, and no dispatch
writes the 128 bytes below the stack pointer or anything above. -/
theorem signal_transparent (L : Layout) {s₀ : State} {n : Nested}
    (h : Runs.Reaches (next L) (Allowed L) ⟨s₀, []⟩ n) :
    (∀ f fs, n.frames = f :: fs → n.now.regs RSP = f.sframe → (comSysSyscallSigreturn L n.now).regs
      = f.regs ∧ (comSysSyscallSigreturn L n.now).masked = f.masked) ∧
    ∀ sa sig, Fits L n → ∀ a : Ptr, (n.now.regs RSP).toNat ≤ a.toNat + 128 →
      (enterHandler L sa sig n.now).mem a = n.now.mem a := by
  have hiv : Invariant L n := by
    apply h.invariant (Invariant L)
    · exact ⟨fun f hf => absurd hf not_mem_nil, .nil⟩
    · intro s e s' hs hok hn
      exact hs.next hok hn
  constructor
  · intro f fs hfr hrs
    have hkp := hiv.kept f (by rw [hfr]; exact mem_cons_self)
    rw [comSysSyscallSigreturn, hrs]
    exact ⟨funext hkp.regs, hkp.masked⟩
  · intro sa sig hfits a ha
    exact mem_enterHandler hfits.1 ha

/-- A stack pointer at which the frame wraps around the end of the address space. -/
theorem signal_not_transparent : ∃ a : Ptr, (64 : Ptr).toNat ≤ a.toNat + 128 ∧
    (enterHandler sampleLayout sampleAction 9 (sampleState 64)).mem a ≠ (sampleState 64).mem a := by
  refine ⟨0xfffffffffffffd98, by decide, ?_⟩
  decide +kernel

theorem signal_transparent_nested : ∃ n : Nested, n.frames.length = 2 ∧
    ((∀ f fs, n.frames = f :: fs → n.now.regs RSP = f.sframe →
      (comSysSyscallSigreturn sampleLayout n.now).regs = f.regs ∧
        (comSysSyscallSigreturn sampleLayout n.now).masked = f.masked) ∧
    ∀ sa sig, Fits sampleLayout n → ∀ a : Ptr, (n.now.regs RSP).toNat ≤ a.toNat + 128 →
      (enterHandler sampleLayout sa sig n.now).mem a = n.now.mem a) := by
  have hfs : Allowed sampleLayout ⟨sampleState 0x7000, []⟩ (.dispatch sampleAction 9) :=
    ⟨by decide, fun f hf => by cases hf⟩
  have hsc : Allowed sampleLayout ⟨enterHandler sampleLayout sampleAction 9 (sampleState 0x7000),
      [⟨(sampleState 0x7000).regs, 0, archContextAllocSigframe sampleLayout 0x7000⟩]⟩
      (.dispatch sampleAction 11) := by
    refine ⟨by decide, fun f hf => ?_⟩
    cases hf
    decide
  exact ⟨_, rfl, signal_transparent sampleLayout ((Runs.Reaches.start.step hfs rfl).step hsc rfl)⟩

end SignalFrame
