import SalernosKernel.ForkMemory

/-! # Isolation of forked address spaces

Runs of forks and user stores, beside a model in which a fork copies every page at once. -/
namespace ForkIsolation

open PageTable PageTableDuplicate ForkMemory Option CopyOnWrite
open PhysicalMemory (takenMeta)
open RadixTable (walk)

variable {s s' : System} {pt : Pagetable} {i va : ℕ} {e : Entry} {p : RadixTable.Path 512 3}
  {newPhys : Entry}
  {F : Set ℕ} {rootTable : Pagetable} {c : Eager (RadixTable.Path 512 3) Content}

inductive Event where
  | fork (i : ℕ)
  | write (i va : ℕ) (b : BitVec 8) (newPhys : Entry)

def next (rootTable : Pagetable) (s : System) : Event → Option System
  | .fork i => fork rootTable s i
  | .write i va b newPhys => userWrite s i va b newPhys

def Accepts (e : Entry) : Prop :=
  has archMmuFlagsWrite e ∨ has archMmuExtraFlagsPrivate e ∧ ¬ has archMmuExtraFlagsNocopy e
  deriving Decidable

theorem userWrite_simulates (hb : Backed s) (h : Simulates (store s) c)
    (hpt : s.tables[i]? = some pt) (he : userEntry pt va = some e) (hva : va < 2 ^ 47)
    (b : BitVec 8) (hnw : newPhys &&& addrMask = newPhys)
    (htk : (takeFree s.pageMeta newPhys.toNat).isSome) :
    ∃ s', userWrite s i va b newPhys = some s' ∧ (∃ F, LeavesFrom F s s') ∧ Backed s' ∧
      Simulates (store s') (if Accepts e then c.write i (pathOf 3 va) (setByte va b) else c) := by
  simp only [userWrite, hpt, he, bind_eq_bind, bind_some]
  by_cases hw : has archMmuFlagsWrite e
  · rw [if_pos hw, if_pos (.inl hw)]
    obtain ⟨hb', h'⟩ := direct_simulates hb h hpt he hw b
    exact ⟨_, rfl, ⟨∅, .refl s⟩, hb', h'⟩
  · rw [if_neg hw]
    by_cases hcw : has archMmuExtraFlagsPrivate e ∧ ¬ has archMmuExtraFlagsNocopy e
    · obtain ⟨hp, hn⟩ := hcw
      obtain ⟨s₁, pt₁, P, hfl, hl, hb₁, h₁, hpt₁, he₁⟩ :=
        handleFault_simulates hpt he hp hn hb h hva hnw htk
      have his := x8664MmuFaultIsr_cow hva (getPage_of_userEntry he) hp hn
      have hw₁ := remapped_write hp hn P
      obtain ⟨hb₂, h₂⟩ := direct_simulates hb₁ h₁ hpt₁ he₁ hw₁ b
      rw [if_pos ⟨hp, hn⟩, if_pos (.inr ⟨hp, hn⟩), his, bind_some, hfl,
        bind_some, hpt₁, bind_some, he₁, bind_some, if_pos hw₁]
      exact ⟨_, rfl, hl, hb₂, h₂⟩
    · rw [if_neg hcw, if_neg (by unfold Accepts; tauto)]
      exact ⟨s, rfl, ⟨∅, .refl s⟩, hb, h⟩

abbrev Pair := System × Eager (RadixTable.Path 512 3) Content

def entryAt (s : System) (i va : ℕ) : Option Entry := s.tables[i]?.bind fun pt => userEntry pt va

def eagerNext (z : Pair) : Event → Eager (RadixTable.Path 512 3) Content
  | .fork i => z.2.fork i
  | .write i va b _ =>
    if ∃ e ∈ entryAt z.1 i va, Accepts e then z.2.write i (pathOf 3 va) (setByte va b) else z.2

def pairNext (rootTable : Pagetable) (z : Pair) (ev : Event) : Option Pair :=
  (next rootTable z.1 ev).map fun s => (s, eagerNext z ev)

def Enabled (z : Pair) : Event → Prop
  | .fork i => i < z.1.tables.length ∧ z.1.tables.length < maxTables
  | .write i va _ newPhys => va < 2 ^ 47 ∧ (entryAt z.1 i va).isSome ∧
      newPhys &&& addrMask = newPhys ∧ (takeFree z.1.pageMeta newPhys.toNat).isSome

instance (z : Pair) : ∀ ev, Decidable (Enabled z ev)
  | .fork _ => inferInstanceAs (Decidable (_ ∧ _))
  | .write .. => inferInstanceAs (Decidable (_ ∧ _))

theorem pairNext_simulates (rootTable : Pagetable) {z : Pair} {ev : Event} (hb : Backed z.1)
    (h : Simulates (store z.1) z.2) (hen : Enabled z ev) :
    ∃ z', pairNext rootTable z ev = some z' ∧ (∃ F, LeavesFrom F z.1 z'.1) ∧ Backed z'.1 ∧
      Simulates (store z'.1) z'.2 := by
  cases ev with
  | fork i =>
    obtain ⟨hi, hlt⟩ := hen
    obtain ⟨s', hs', hl, hb', h'⟩ :=
      fork_simulates rootTable hb h (List.getElem?_eq_getElem hi) hlt
    refine ⟨(s', z.2.fork i), ?_, ⟨∅, hl⟩, hb', h'⟩
    rw [pairNext, next, hs']
    rfl
  | write i va b newPhys =>
    obtain ⟨hva, hps, hnw, htk⟩ := hen
    obtain ⟨e, he⟩ := isSome_iff_exists.mp hps
    obtain ⟨pt, hpt, het⟩ := bind_eq_some_iff.mp he
    obtain ⟨s', hs', hl, hb', h'⟩ := userWrite_simulates hb h hpt het hva b hnw htk
    refine ⟨(s', eagerNext z (.write i va b newPhys)), ?_, hl, hb', ?_⟩
    · rw [pairNext, next, hs']
      rfl
    · have hac : (∃ e ∈ entryAt z.1 i va, Accepts e) ↔ Accepts e := by
        simp [he]
      simp only [eagerNext, hac]
      exact h'

def observe (s : System) (i va : ℕ) : Option (BitVec 8) :=
  (entryAt s i va).map fun e => s.mem (physPage e + va % archPageSize)

def eagerByte (c : Eager (RadixTable.Path 512 3) Content) (i va : ℕ) : Option (BitVec 8) :=
  (c.read i (pathOf 3 va)).map fun content =>
    content ⟨va % archPageSize, offset_lt va⟩

/-- One table whose present user pages are distinct allocated pages with one reference each. -/
structure Initial (s : System) (pt : Pagetable) : Prop where
  tables : s.tables = [pt]
  array : s.pageMeta.reservedStart ≤ s.pageMeta.extendedLen
  fake : s.pageMeta.fakeEntry.state ≠ .free
  allocated : ∀ p e, userLeaf pt p = some e → frame e < s.pageMeta.reservedStart ∧
    (s.pageMeta.entries (frame e)).state = .taken ∧ (s.pageMeta.entries (frame e)).numRef = 1
  distinct : ∀ p q e e', userLeaf pt p = some e → userLeaf pt q = some e' →
    frame e' = frame e → q = p
  exclusive : ∀ p e, userLeaf pt p = some e →
    ¬ (has archMmuExtraFlagsShared e ∧ has archMmuExtraFlagsPrivate e)

def eagerOf (s : System) (pt : Pagetable) : Eager (RadixTable.Path 512 3) Content where
  mapped p := (userLeaf pt p).isSome
  shared p := (userLeaf pt p).any (has archMmuExtraFlagsShared)
  common p := (store s).content (((userLeaf pt p).map frame).getD 0)
  own := [fun p => (store s).content (((userLeaf pt p).map frame).getD 0)]

theorem initial_backed (h : Initial s pt) : Backed s := by
  have hme : ∀ pt' ∈ s.tables, pt' = pt := by
    intro pt' hpt'
    rwa [h.tables, List.mem_singleton] at hpt'
  constructor
  · exact h.array
  · exact h.fake
  · rw [h.tables, List.length_singleton]
    decide
  · intro pt' hpt' p e he
    obtain rfl := hme pt' hpt'
    exact ⟨(h.allocated p e he).1, (h.allocated p e he).2.1⟩
  · intro pt' hpt' p e he
    obtain rfl := hme pt' hpt'
    exact h.exclusive p e he

theorem initial_simulates (h : Initial s pt) : Simulates (store s) (eagerOf s pt) := by
  have hsc : (store s).spaces = [spaceOf pt] := by rw [store, h.tables, List.map_singleton]
  have hlk : ∀ i p m, (store s).look i p = some m →
      i = 0 ∧ ∃ e, userLeaf pt p = some e ∧ m = mapping e := by
    intro i p m hm
    obtain ⟨sp, hsp, hky⟩ := exists_space hm
    rw [hsc] at hsp
    obtain ⟨rfl, rfl⟩ : i = 0 ∧ spaceOf pt = sp := by simpa [List.getElem?_singleton] using hsp
    obtain ⟨e, he, rfl⟩ := map_eq_some_iff.mp hky
    exact ⟨rfl, e, he, rfl⟩
  constructor
  · rw [hsc]
    rfl
  · intro i p m hm
    obtain ⟨rfl, e, he, rfl⟩ := hlk i p m hm
    simp [Eager.read, eagerOf, he, mapping]
  · intro i p m hm
    obtain ⟨-, e, he, rfl⟩ := hlk i p m hm
    simp [eagerOf, he, mapping]
  · intro i j p q m m' hm hm' hf
    obtain ⟨-, e, he, rfl⟩ := hlk i p m hm
    obtain ⟨-, e', he', rfl⟩ := hlk j q m' hm'
    exact h.distinct p q e e' he he' hf
  · intro i p m hm
    obtain ⟨-, e, he, rfl⟩ := hlk i p m hm
    have hhl : Holds p (frame e) (spaceOf pt) :=
      holds_spaceOf.mpr (by rw [he]; rfl)
    rw [hsc, List.countP_singleton]
    exact (h.allocated p e he).2.2.trans (if_pos hhl).symm
  · intro i j p m m' hm hm' _
    obtain ⟨-, e, he, rfl⟩ := hlk i p m hm
    obtain ⟨-, e', he', rfl⟩ := hlk j p m' hm'
    rw [some.inj (he.symm.trans he')]
  · intro i j p m m' hm hm' _ _ _
    rw [(hlk i p m hm).1, (hlk j p m' hm').1]
  · intro i p hi
    rw [hsc, List.length_singleton, Nat.lt_one_iff] at hi
    subst hi
    have hpt : s.tables[0]? = some pt := by rw [h.tables]; rfl
    rw [look_store hpt, isSome_map]
    rfl

theorem observe_eq (h : Simulates (store s) c) (hi : i < s.tables.length) (va : ℕ) :
    observe s i va = eagerByte c i va := by
  have hpt : s.tables[i]? = some s.tables[i] := List.getElem?_eq_getElem hi
  have hrd := h.read_eq (i := i) (by simpa [store] using hi) (pathOf 3 va)
  rw [eagerByte, hrd, look_store hpt, observe, entryAt, hpt, bind_some]
  simp only [map_map]
  apply congrArg (Option.map · (userLeaf s.tables[i] (pathOf 3 va)))
  funext e
  simp [mapping, store, physPage_dvd]

theorem reaches_simulates {z : Pair} (h₀ : Initial s pt)
    (hr : Runs.Reaches (pairNext rootTable) Enabled (s, eagerOf s pt) z) :
    Backed z.1 ∧ Simulates (store z.1) z.2 := by
  apply hr.invariant (fun z => Backed z.1 ∧ Simulates (store z.1) z.2)
  · exact ⟨initial_backed h₀, initial_simulates h₀⟩
  · rintro z ev z' ⟨hb, h⟩ hen hnext
    obtain ⟨z₁, hz₁, -, hb₁, h₁⟩ := pairNext_simulates rootTable hb h hen
    obtain rfl := some.inj (hz₁.symm.trans hnext)
    exact ⟨hb₁, h₁⟩

/-- After any forks and stores each address space observes what eager copies would show, and no
further one stops at an assertion. -/
theorem forks_isolated {z : Pair} (h₀ : Initial s pt)
    (hr : Runs.Reaches (pairNext rootTable) Enabled (s, eagerOf s pt) z) :
    (∀ i va, i < z.1.tables.length → observe z.1 i va = eagerByte z.2 i va) ∧
    (∀ i va e, entryAt z.1 i va = some e →
      has archMmuExtraFlagsShared e = z.2.shared (pathOf 3 va)) ∧
    ∀ ev, Enabled z ev → (pairNext rootTable z ev).isSome := by
  obtain ⟨hb, h⟩ := reaches_simulates h₀ hr
  refine ⟨fun i va hi => observe_eq h hi va, ?_, ?_⟩
  · intro i va e he
    obtain ⟨pt, hpt, he⟩ := bind_eq_some_iff.mp he
    apply h.shared i (pathOf 3 va) (mapping e)
    rw [look_store hpt]
    exact congrArg (Option.map mapping) he
  · intro ev hen
    obtain ⟨z', hz', -⟩ := pairNext_simulates rootTable hb h hen
    rw [hz']
    rfl

def sampleEntry (P flags : Entry) : Entry := P ||| dataFlags ||| flags

def sampleTable (val : Fin 512 → Entry) : Pagetable :=
  .node (fun i => if i = 0 then some dataFlags else none) fun _ =>
    .node (fun i => if i = 0 then some dataFlags else none) fun _ =>
      .node (fun i => if i = 0 then some dataFlags else none) fun _ => .leaf val

def sampleLeaves (i : Fin 512) : Entry :=
  if i = 1 then sampleEntry 0x9000 0 else
    if i = 2 then sampleEntry 0xa000 archMmuExtraFlagsShared else 0

def sampleSystem : System where
  pageMeta := ⟨none, fun f => if f = 9 ∨ f = 10 then takenMeta else .zero, 32, 32, 32,
    PhysicalMemory.reservedMeta⟩
  mem _ := 5
  tables := [sampleTable sampleLeaves]

theorem userLeaf_sampleTable {val : Fin 512 → Entry} (h : userLeaf (sampleTable val) p = some e) :
    ∃ i, p = .step 0 (.step 0 (.step 0 (.last i))) ∧ val i = e ∧ present e := by
  obtain ⟨hwk, hpr⟩ := walk_of_userLeaf h
  rcases p with _ | ⟨i₃, p⟩
  rcases p with _ | ⟨i₂, p⟩
  rcases p with _ | ⟨i₁, p⟩
  obtain ⟨i⟩ := p
  have hsl : i₃ = 0 ∧ i₂ = 0 ∧ i₁ = 0 := by
    by_contra hne
    rw [sampleTable] at hwk
    simp only [walk] at hwk
    grind
  obtain ⟨rfl, rfl, rfl⟩ := hsl
  exact ⟨i, rfl, some.inj hwk, hpr⟩

theorem sampleSystem_initial : Initial sampleSystem (sampleTable sampleLeaves) := by
  have hlf : ∀ p e, userLeaf (sampleTable sampleLeaves) p = some e →
      (p = .step 0 (.step 0 (.step 0 (.last 1))) ∧ e = sampleEntry 0x9000 0) ∨
      (p = .step 0 (.step 0 (.step 0 (.last 2))) ∧ e = sampleEntry 0xa000 archMmuExtraFlagsShared) := by
    intro p e he
    obtain ⟨i, rfl, rfl, hpr⟩ := userLeaf_sampleTable he
    rw [sampleLeaves] at hpr ⊢
    split at hpr
    · rename_i hi
      exact .inl ⟨by rw [hi], by rw [if_pos hi]⟩
    · split at hpr
      · rename_i hi hi'
        exact .inr ⟨by rw [hi'], by rw [if_neg hi, if_pos hi']⟩
      · exact absurd hpr (by decide)
  constructor
  · rfl
  · decide
  · decide
  · intro p e he
    rcases hlf p e he with ⟨-, rfl⟩ | ⟨-, rfl⟩
    · decide
    · decide
  · intro p q e e' he he' hf
    rcases hlf p e he with ⟨rfl, rfl⟩ | ⟨rfl, rfl⟩
    · rcases hlf q e' he' with ⟨rfl, rfl⟩ | ⟨rfl, rfl⟩
      · rfl
      · exact absurd hf (by decide)
    · rcases hlf q e' he' with ⟨rfl, rfl⟩ | ⟨rfl, rfl⟩
      · exact absurd hf (by decide)
      · rfl
  · intro p e he
    rcases hlf p e he with ⟨-, rfl⟩ | ⟨-, rfl⟩
    · decide
    · decide

def sampleRun : Option Pair :=
  Runs.run (pairNext (sampleTable fun _ => 0)) Enabled
    (sampleSystem, eagerOf sampleSystem (sampleTable sampleLeaves))
    [.fork 0, .write 1 0x1004 7 0x5000, .write 0 0x2000 9 0x6000]

theorem sampleRun_isSome : sampleRun.isSome := by decide +kernel

theorem forks_isolated_sample :
    ∃ z, sampleRun = some z ∧ observe z.1 0 0x1004 = some 5 ∧ observe z.1 1 0x1004 = some 7 ∧
      observe z.1 1 0x2000 = some 9 ∧
      ∀ i va, i < z.1.tables.length → observe z.1 i va = eagerByte z.2 i va := by
  obtain ⟨z, hz⟩ := isSome_iff_exists.mp sampleRun_isSome
  have hob : sampleRun.map (fun z =>
      (observe z.1 0 0x1004, observe z.1 1 0x1004, observe z.1 1 0x2000)) =
      some (some 5, some 7, some 9) := by decide +kernel
  rw [hz] at hob
  simp only [map_some, some.injEq, Prod.mk.injEq] at hob
  refine ⟨z, hz, hob.1, hob.2.1, hob.2.2, ?_⟩
  exact (forks_isolated sampleSystem_initial (Runs.run_reaches hz)).1

end ForkIsolation
