import Mathlib.Algebra.Order.Ring.Nat
import Mathlib.Data.List.Nodup
import Mathlib.Data.List.Pairwise
import Mathlib.Data.List.ProdSigma

/-! # PCI functions and their capabilities

`opt_pci_get_capability_offset`, `opt_pci_enumate` and what it calls of `opt/pci/pci.c`, and the
loop over the entries of the MCFG table of `opt/acpi/pci.c`. Configuration space is plain memory. -/
namespace Pci

open List

abbrev Config := ℕ → UInt8

def OPT_PCI_CONFIG_STATUS : ℕ := 0x6
def OPT_PCI_STATUS_HASCAP : UInt8 := 0x10
def OPT_PCI_CONFIG_HEADERTYPE : ℕ := 0xe
def OPT_PCI_HEADERTYPE_MULTIFUNCTION_MASK : UInt8 := 0x80
def OPT_PCI_CONFIG_CAP : ℕ := 0x34
def OPT_PCI_CAP_MSI : UInt8 := 0x5
def OPT_PCI_CAP_MSIX : UInt8 := 0x11

section Capabilities

variable (conf : Config) (cap : UInt8)

def capLoop : ℕ → UInt8 → ℕ → Option UInt8
  | 0, _, _ => none
  | rounds + 1, offset, maxLoop =>
    if offset = 0 then some 0
    else if cap = conf offset.toNat then
      if maxLoop = 0 then some offset
      else capLoop rounds (conf (offset.toNat + 1)) (maxLoop - 1)
    else capLoop rounds (conf (offset.toNat + 1)) maxLoop

def HasCap : Prop := conf OPT_PCI_CONFIG_STATUS &&& OPT_PCI_STATUS_HASCAP ≠ 0
  deriving Decidable

/-- No result is a loop that goes on. -/
def optPciGetCapabilityOffset (rounds maxLoop : ℕ) : Option UInt8 :=
  if HasCap conf then capLoop conf cap rounds (conf OPT_PCI_CONFIG_CAP) maxLoop else some 0

/-- `r` is the capability number `m` with this id in the list from `o` on. -/
inductive Nth : UInt8 → ℕ → UInt8 → Prop where
  | here {o : UInt8} : o ≠ 0 → cap = conf o.toNat → Nth o 0 o
  | same {o r : UInt8} {m : ℕ} : o ≠ 0 → cap = conf o.toNat → Nth (conf (o.toNat + 1)) m r →
      Nth o (m + 1) r
  | other {o r : UInt8} {m : ℕ} : o ≠ 0 → cap ≠ conf o.toNat → Nth (conf (o.toNat + 1)) m r →
      Nth o m r

inductive Ends : UInt8 → Prop where
  | nil : Ends 0
  | cons {o : UInt8} : o ≠ 0 → Ends (conf (o.toNat + 1)) → Ends o

def Answers (m : ℕ) (r : UInt8) : Prop :=
  if HasCap conf then Nth conf cap (conf OPT_PCI_CONFIG_CAP) m r ∨
    r = 0 ∧ ∀ r', ¬ Nth conf cap (conf OPT_PCI_CONFIG_CAP) m r'
  else r = 0

def Finite (m : ℕ) : Prop :=
  HasCap conf → Ends conf (conf OPT_PCI_CONFIG_CAP) ∨
    ∃ r, Nth conf cap (conf OPT_PCI_CONFIG_CAP) m r

variable {conf cap} {o r : UInt8} {m rounds : ℕ}

theorem Nth.loop (h : Nth conf cap o m r) : ∃ rounds, capLoop conf cap rounds o m = some r := by
  induction h with
  | here ho hc => exact ⟨1, by rw [capLoop, if_neg ho, if_pos hc, if_pos rfl]⟩
  | same ho hc _ ih =>
    obtain ⟨rounds, hr⟩ := ih
    exact ⟨rounds + 1, by rw [capLoop, if_neg ho, if_pos hc, if_neg (by simp)]; exact hr⟩
  | other ho hc _ ih =>
    obtain ⟨rounds, hr⟩ := ih
    exact ⟨rounds + 1, by rw [capLoop, if_neg ho, if_neg hc, hr]⟩

theorem Ends.loop (h : Ends conf o) (m : ℕ) : ∃ rounds r, capLoop conf cap rounds o m = some r := by
  induction h generalizing m with
  | nil => exact ⟨1, 0, rfl⟩
  | @cons o ho _ ih =>
    by_cases hc : cap = conf o.toNat
    · by_cases hm : m = 0
      · exact ⟨1, o, by rw [capLoop, if_neg ho, if_pos hc, if_pos hm]⟩
      · obtain ⟨rounds, r, hr⟩ := ih (m - 1)
        exact ⟨rounds + 1, r, by rw [capLoop, if_neg ho, if_pos hc, if_neg hm, hr]⟩
    · obtain ⟨rounds, r, hr⟩ := ih m
      exact ⟨rounds + 1, r, by rw [capLoop, if_neg ho, if_neg hc, hr]⟩

theorem loop_answers (h : capLoop conf cap rounds o m = some r) :
    Nth conf cap o m r ∨ r = 0 ∧ Ends conf o ∧ ∀ r', ¬ Nth conf cap o m r' := by
  induction rounds generalizing o m with
  | zero => cases h
  | succ rounds ih =>
    rw [capLoop] at h
    split_ifs at h with ho hc hm
    · cases h
      subst ho
      exact .inr ⟨rfl, .nil, fun r' h' => by cases h' <;> contradiction⟩
    · cases h
      exact .inl (hm ▸ .here ho hc)
    · obtain ⟨m, rfl⟩ := Nat.exists_eq_succ_of_ne_zero hm
      refine (ih h).imp (.same ho hc) fun ⟨hz, he, hn⟩ => ⟨hz, .cons ho he, fun r' h' => ?_⟩
      cases h' with
      | same _ _ h' => exact hn r' h'
      | other _ hc' _ => exact hc' hc
    · refine (ih h).imp (.other ho hc) fun ⟨hz, he, hn⟩ => ⟨hz, .cons ho he, fun r' h' => ?_⟩
      cases h' with
      | here _ hc' | same _ hc' _ => exact hc hc'
      | other _ _ h' => exact hn r' h'

theorem getCapabilityOffset_answers (h : optPciGetCapabilityOffset conf cap rounds m = some r) :
    Finite conf cap m ∧ Answers conf cap m r := by
  unfold optPciGetCapabilityOffset at h
  unfold Finite Answers
  split_ifs at h ⊢ with hcp
  · obtain h | ⟨hz, he, hn⟩ := loop_answers h
    · exact ⟨fun _ => .inr ⟨r, h⟩, .inl h⟩
    · exact ⟨fun _ => .inl he, .inr ⟨hz, hn⟩⟩
  · exact ⟨fun h => absurd h hcp, (Option.some.inj h).symm⟩

theorem Finite.returns (h : Finite conf cap m) :
    ∃ rounds r, optPciGetCapabilityOffset conf cap rounds m = some r := by
  unfold optPciGetCapabilityOffset
  split_ifs with hcp
  · obtain h | ⟨r, h⟩ := h hcp
    · exact h.loop m
    · obtain ⟨rounds, hr⟩ := h.loop
      exact ⟨rounds, r, hr⟩
  · exact ⟨0, 0, rfl⟩

/-- The search ends, with the right answer, exactly if the list does. -/
theorem capability_offset_iff (conf : Config) (cap : UInt8) (m : ℕ) :
    (∃ rounds r, optPciGetCapabilityOffset conf cap rounds m = some r ∧ Answers conf cap m r) ↔
      Finite conf cap m := by
  constructor
  · rintro ⟨rounds, r, h, -⟩
    exact (getCapabilityOffset_answers h).1
  · intro h
    obtain ⟨rounds, r, hr⟩ := h.returns
    exact ⟨rounds, r, hr, (getCapabilityOffset_answers hr).2⟩

/-- A capability that is its own successor. -/
def circular : Config := fun a => if a = 6 then 0x10 else if a = 0x34 ∨ a = 0x41 then 0x40 else 5

theorem capability_offset_circular : ¬ ∃ rounds r,
    optPciGetCapabilityOffset circular OPT_PCI_CAP_MSIX rounds 0 = some r := by
  rintro ⟨rounds, r, h⟩
  change capLoop circular OPT_PCI_CAP_MSIX rounds 0x40 0 = some r at h
  induction rounds with
  | zero => cases h
  | succ rounds ih => exact ih h

end Capabilities

section Enumeration

abbrev Addr := ℕ × ℕ × ℕ

structure Entry where
  startBus : ℕ
  endBus : ℕ

variable (conf : Addr → Config)

/-- The word at offset 0 is not all ones. -/
def FuncExists (a : Addr) : Prop := ∃ i ∈ range 4, conf a i ≠ 0xff
  deriving Decidable

def numFunctions (bus dev : ℕ) : ℕ :=
  if conf (bus, dev, 0) OPT_PCI_CONFIG_HEADERTYPE &&& OPT_PCI_HEADERTYPE_MULTIFUNCTION_MASK ≠ 0
  then 8 else 1

def Present (a : Addr) : Prop :=
  FuncExists conf (a.1, a.2.1, 0) ∧ a.2.2 < numFunctions conf a.1 a.2.1 ∧ FuncExists conf a
  deriving Decidable

/-- The three loops: buses, devices, functions. -/
def optPciEnumate (startBus endBus : ℕ) : List Addr :=
  (range' startBus (endBus - startBus) ×ˢ (range 32 ×ˢ range 8)).filter (Present conf ·)

/-- Each lookup has its own number of rounds. -/
def enumerateFunction (rounds : Addr → UInt8 → ℕ) (l : List Addr) (a : Addr) :
    Option (List Addr) :=
  (optPciGetCapabilityOffset (conf a) OPT_PCI_CAP_MSIX (rounds a OPT_PCI_CAP_MSIX) 0).bind fun _ =>
    (optPciGetCapabilityOffset (conf a) OPT_PCI_CAP_MSI (rounds a OPT_PCI_CAP_MSI) 0).map fun _ =>
      a :: l

def optAcpiInitPci (rounds : Addr → UInt8 → ℕ) (table : List Entry) : Option (List Addr) :=
  (table.flatMap fun e => optPciEnumate conf e.startBus e.endBus).foldlM
    (enumerateFunction conf rounds) []

def Entry.Covers (e : Entry) (bus : ℕ) : Prop := e.startBus ≤ bus ∧ bus ≤ e.endBus

abbrev Table := {table : List Entry //
  table.Pairwise fun e f => ∀ bus, ¬ (e.Covers bus ∧ f.Covers bus)}

def Listed (table : Table) (a : Addr) : Prop :=
  (∃ e ∈ table.1, e.Covers a.1) ∧ a.2.1 < 32 ∧ Present conf a

def Complete (table : Table) (l : List Addr) : Prop := l.Nodup ∧ ∀ a, a ∈ l ↔ Listed conf table a

/-- The lookups in a function return. -/
def Capable (a : Addr) : Prop :=
  Finite (conf a) OPT_PCI_CAP_MSIX 0 ∧ Finite (conf a) OPT_PCI_CAP_MSI 0

variable {conf} {table : Table} {a : Addr} {l l' es : List Addr}

theorem mem_enumate {s e : ℕ} : a ∈ optPciEnumate conf s e ↔
    s ≤ a.1 ∧ a.1 < e ∧ a.2.1 < 32 ∧ Present conf a := by
  obtain ⟨bus, dev, f⟩ := a
  have hfu : Present conf (bus, dev, f) → f < 8 := fun h => lt_of_lt_of_le h.2.1 (by
    unfold numFunctions
    split_ifs <;> decide)
  simp only [optPciEnumate, mem_filter, decide_eq_true_eq, mem_product, mem_range'_1, mem_range]
  constructor
  · rintro ⟨⟨⟨hs, he⟩, hd, -⟩, hp⟩
    exact ⟨hs, by omega, hd, hp⟩
  · rintro ⟨hs, he, hd, hp⟩
    exact ⟨⟨⟨hs, by omega⟩, hd, hfu hp⟩, hp⟩

theorem nodup_visited (table : Table) :
    (table.1.flatMap fun e => optPciEnumate conf e.startBus e.endBus).Nodup := by
  refine nodup_flatMap.mpr ⟨fun e _ => ?_, table.2.imp fun hd a ha hb => ?_⟩
  · exact ((Nodup.product nodup_range' (nodup_range.product nodup_range))).filter _
  · obtain ⟨hs, he, -⟩ := mem_enumate.mp ha
    obtain ⟨hs', he', -⟩ := mem_enumate.mp hb
    exact hd a.1 ⟨⟨hs, he.le⟩, hs', he'.le⟩

theorem enumerate_some {rounds : Addr → UInt8 → ℕ} :
    es.foldlM (enumerateFunction conf rounds) l = some l' ↔ l' = es.reverse ++ l ∧ ∀ a ∈ es,
      (enumerateFunction conf rounds [] a).isSome := by
  induction es generalizing l with
  | nil => exact ⟨fun h => by cases h; simp, fun h => h.1 ▸ rfl⟩
  | cons a es ih =>
    rw [foldlM_cons]
    cases hx : optPciGetCapabilityOffset (conf a) OPT_PCI_CAP_MSIX (rounds a OPT_PCI_CAP_MSIX) 0 with
    | none => simp [enumerateFunction, hx]
    | some x =>
      cases hy : optPciGetCapabilityOffset (conf a) OPT_PCI_CAP_MSI (rounds a OPT_PCI_CAP_MSI) 0 with
      | none => simp [enumerateFunction, hx, hy]
      | some y => simp [enumerateFunction, hx, hy, ih]

/-- `opt_pci_enumate` stops in front of `end_bus`. -/
theorem enumeration_complete_iff (conf : Addr → Config) (table : Table) :
    (∃ rounds l, optAcpiInitPci conf rounds table.1 = some l ∧ Complete conf table l) ↔
      (∀ e ∈ table.1, e.startBus ≤ e.endBus → ∀ dev < 32, ¬ FuncExists conf (e.endBus, dev, 0)) ∧
        ∀ a, Listed conf table a → Capable conf a := by
  have hvs : ∀ a, (a ∈ table.1.flatMap fun e => optPciEnumate conf e.startBus e.endBus) ↔
      ∃ e ∈ table.1, e.startBus ≤ a.1 ∧ a.1 < e.endBus ∧ a.2.1 < 32 ∧ Present conf a := fun a => by
    simp only [mem_flatMap, mem_enumate]
  constructor
  · rintro ⟨rounds, l, hrn, hnd, hal⟩
    obtain ⟨rfl, hsm⟩ := enumerate_some.mp hrn
    simp only [append_nil, mem_reverse] at hal
    refine ⟨fun e he hle dev hdv hex => ?_, fun a ha => ?_⟩
    · have hin := (hal (e.endBus, dev, 0)).mpr ⟨⟨e, he, hle, le_rfl⟩, hdv, hex, by
        unfold numFunctions
        split_ifs <;> simp, hex⟩
      obtain ⟨f, hf, hs, hlt, -⟩ := (hvs _).mp hin
      have hne : e ≠ f := by
        rintro rfl
        exact lt_irrefl _ hlt
      have : Std.Symm fun e f : Entry => ∀ bus, ¬ (e.Covers bus ∧ f.Covers bus) :=
        ⟨fun _ _ h bus hb => h bus hb.symm⟩
      exact table.2.forall he hf hne e.endBus ⟨⟨hle, le_rfl⟩, hs, hlt.le⟩
    · have hfn := hsm a ((hal a).mpr ha)
      obtain ⟨l, hl⟩ := Option.isSome_iff_exists.mp hfn
      obtain ⟨x, hx, hl⟩ := Option.bind_eq_some_iff.mp hl
      obtain ⟨y, hy, -⟩ := Option.map_eq_some_iff.mp hl
      exact ⟨(getCapabilityOffset_answers hx).1, (getCapabilityOffset_answers hy).1⟩
  · rintro ⟨hed, hfi⟩
    have hme : ∀ a, (a ∈ table.1.flatMap fun e => optPciEnumate conf e.startBus e.endBus) ↔
        Listed conf table a := by
      intro a
      rw [hvs]
      constructor
      · rintro ⟨e, he, hs, hlt, hd, hp⟩
        exact ⟨⟨e, he, hs, hlt.le⟩, hd, hp⟩
      · rintro ⟨⟨e, he, hs, hle⟩, hd, hp⟩
        refine ⟨e, he, hs, lt_of_le_of_ne hle fun heq => ?_, hd, hp⟩
        exact hed e he (hs.trans hle) a.2.1 hd (heq ▸ hp.1)
    have hrs : ∀ a cap, ∃ n, Finite (conf a) cap 0 →
        (optPciGetCapabilityOffset (conf a) cap n 0).isSome := by
      intro a cap
      by_cases h : Finite (conf a) cap 0
      · obtain ⟨n, r, hr⟩ := h.returns
        exact ⟨n, fun _ => hr ▸ rfl⟩
      · exact ⟨0, fun h' => absurd h' h⟩
    choose rounds hr using hrs
    refine ⟨rounds, _, enumerate_some.mpr ⟨rfl, fun a ha => ?_⟩, ?_⟩
    · have hcp := hfi a ((hme a).mp ha)
      obtain ⟨x, hx⟩ := Option.isSome_iff_exists.mp (hr a _ hcp.1)
      obtain ⟨y, hy⟩ := Option.isSome_iff_exists.mp (hr a _ hcp.2)
      simp [enumerateFunction, hx, hy]
    · rw [append_nil]
      exact ⟨nodup_reverse.mpr (nodup_visited table), fun a => mem_reverse.trans (hme a)⟩

/-- One bus with a device in every slot: nothing is found. -/
theorem enumeration_incomplete : ∃ table : Table, table.1 = [⟨0, 0⟩] ∧
    Listed (fun _ _ => 0) table (0, 0, 0) ∧
    optAcpiInitPci (fun _ _ => 0) (fun _ _ => 1) table.1 = some [] :=
  ⟨⟨[⟨0, 0⟩], by simp⟩, rfl, ⟨⟨_, .head _, le_rfl, le_rfl⟩, by decide⟩, rfl⟩

end Enumeration

end Pci
