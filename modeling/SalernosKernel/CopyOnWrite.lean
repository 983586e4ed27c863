import Mathlib.Data.Fintype.BigOperators

/-! # Copy-on-write against eager copying

Spaces map keys to counted frames. A fork copies the mappings and takes the right to write from both
sides; a space gets it back by owning the frame alone or by copying it. -/
namespace CopyOnWrite

open Function
open List Option

variable {K F V : Type*}

structure Mapping (F : Type*) where
  frame : F
  shared : Bool
  direct : Bool

def Mapping.protect (m : Mapping F) : Mapping F := { m with direct := m.direct && m.shared }

abbrev Space (K F : Type*) := K → Option (Mapping F)

structure Store (K F V : Type*) where
  spaces : List (Space K F)
  count : F → ℕ
  content : F → V

def Holds [DecidableEq F] (k : K) (f : F) (sp : Space K F) : Bool :=
  decide ((sp k).map Mapping.frame = some f)

def uses [Fintype K] [DecidableEq F] (sp : Space K F) (f : F) : ℕ := ∑ k, if Holds k f sp then 1 else 0

def Store.look (t : Store K F V) (i : ℕ) (k : K) : Option (Mapping F) :=
  t.spaces[i]?.bind fun sp => sp k

def protectAll (sp : Space K F) : Space K F := fun k => (sp k).map Mapping.protect

def Store.fork [Fintype K] [DecidableEq F] (t : Store K F V) (i : ℕ) (sp : Space K F) : Store K F V :=
  { t with
    spaces := t.spaces.set i (protectAll sp) ++ [protectAll sp]
    count := fun f => t.count f + uses sp f }

def Store.write [DecidableEq F] (t : Store K F V) (f : F) (g : V → V) : Store K F V :=
  { t with content := update t.content f (g (t.content f)) }

def remap [DecidableEq K] (t : Store K F V) (i : ℕ) (sp : Space K F) (k : K) (m : Mapping F) :
    List (Space K F) :=
  t.spaces.set i (update sp k (some m))

structure Eager (K V : Type*) where
  mapped : K → Bool
  shared : K → Bool
  common : K → V
  own : List (K → V)

def Eager.read (a : Eager K V) (i : ℕ) (k : K) : Option V :=
  if a.mapped k then
    if a.shared k then some (a.common k) else a.own[i]?.map fun o => o k
  else none

def Eager.fork (a : Eager K V) (i : ℕ) : Eager K V := { a with own := a.own ++ a.own[i]?.toList }

def Eager.write [DecidableEq K] (a : Eager K V) (i : ℕ) (k : K) (g : V → V) : Eager K V :=
  if a.shared k then { a with common := update a.common k (g (a.common k)) }
  else { a with own := a.own.modify i fun o => update o k (g (o k)) }

variable {t : Store K F V} {a : Eager K V} {i j : ℕ} {k l : K} {m m' : Mapping F}
  {sp sp' : Space K F} {sps : List (Space K F)} {f fresh : F} {g : V → V}

theorem holds_iff [DecidableEq F] : Holds k f sp ↔ ∃ m, sp k = some m ∧ m.frame = f := by
  simp [Holds]

theorem holds_protectAll [DecidableEq F] : Holds k f (protectAll sp) = Holds k f sp := by
  simp only [Holds, protectAll, Option.map_map]
  rfl

theorem look_of_space (hi : t.spaces[i]? = some sp) : t.look i k = sp k := by
  rw [Store.look, hi, Option.bind_some]

theorem exists_space (h : t.look i k = some m) : ∃ sp, t.spaces[i]? = some sp ∧ sp k = some m :=
  Option.bind_eq_some_iff.mp h

theorem index_unique {p : Space K F → Bool} (hc : sps.countP p ≤ 1) (hi : sps[i]? = some sp)
    (hj : sps[j]? = some sp') (hp : p sp) (hp' : p sp') : j = i := by
  induction sps generalizing i j with
  | nil => simp at hi
  | cons s sps ih =>
    rw [countP_cons] at hc
    cases i with
    | zero =>
      cases j with
      | zero => rfl
      | succ j =>
        obtain rfl : s = sp := by simpa using hi
        have hps := countP_pos_iff.mpr ⟨sp', mem_of_getElem? (by simpa using hj), hp'⟩
        rw [if_pos hp] at hc
        omega
    | succ i =>
      cases j with
      | zero =>
        obtain rfl : s = sp' := by simpa using hj
        have hps := countP_pos_iff.mpr ⟨sp, mem_of_getElem? (by simpa using hi), hp⟩
        rw [if_pos hp'] at hc
        omega
      | succ j =>
        have hj' := ih (by omega) (by simpa using hi) (by simpa using hj)
        exact congrArg _ hj'

theorem look_set (hi : t.spaces[i]? = some sp) (sp' : Space K F) (j : ℕ) (l : K) :
    (t.spaces.set i sp')[j]?.bind (fun sp => sp l) = if j = i then sp' l else t.look j l := by
  have hln := (List.getElem?_eq_some_iff.mp hi).1
  by_cases hj : j = i
  · subst hj
    rw [if_pos rfl, List.getElem?_set_self hln, bind_some]
  · rw [if_neg hj, List.getElem?_set_ne (Ne.symm hj), Store.look]

theorem countP_set_eq (hi : t.spaces[i]? = some sp) (sp' : Space K F) (p : Space K F → Bool) :
    (t.spaces.set i sp').countP p + (if p sp then 1 else 0) =
      t.spaces.countP p + if p sp' then 1 else 0 := by
  obtain ⟨hln, rfl⟩ := List.getElem?_eq_some_iff.mp hi
  have hps : p t.spaces[i] → 0 < t.spaces.countP p := by
    intro hp
    exact countP_pos_iff.mpr ⟨_, getElem_mem hln, hp⟩
  rw [countP_set hln]
  by_cases hp : p t.spaces[i]
  · have := hps hp
    rw [if_pos hp]
    omega
  · rw [if_neg hp]
    omega

structure Simulates [DecidableEq F] (t : Store K F V) (a : Eager K V) : Prop where
  length : a.own.length = t.spaces.length
  reads : ∀ i k m, t.look i k = some m → a.read i k = some (t.content m.frame)
  shared : ∀ i k m, t.look i k = some m → m.shared = a.shared k
  oneKey : ∀ i j k l m m', t.look i k = some m → t.look j l = some m' → m'.frame = m.frame → l = k
  counted : ∀ i k m, t.look i k = some m → t.count m.frame = t.spaces.countP (Holds k m.frame)
  common : ∀ i j k m m', t.look i k = some m → t.look j k = some m' → m.shared →
    m'.frame = m.frame
  sole : ∀ i j k m m', t.look i k = some m → t.look j k = some m' → m'.frame = m.frame →
    m.direct → ¬ m.shared → j = i
  mapped : ∀ i k, i < t.spaces.length → (t.look i k).isSome = a.mapped k

theorem Simulates.mapped_of_look [DecidableEq F] (h : Simulates t a) (hm : t.look i k = some m) :
    a.mapped k := by
  obtain ⟨sp, hsp, -⟩ := exists_space hm
  rw [← h.mapped i k (List.getElem?_eq_some_iff.mp hsp).1, hm]
  rfl

theorem Simulates.read_eq [DecidableEq F] (h : Simulates t a) (hi : i < t.spaces.length) (k : K) :
    a.read i k = (t.look i k).map fun m => t.content m.frame := by
  cases hm : t.look i k with
  | none =>
    have hmp := h.mapped i k hi
    rw [hm] at hmp
    rw [Eager.read, ← hmp]
    rfl
  | some m => exact h.reads i k m hm

theorem Simulates.exists_own [DecidableEq F] (h : Simulates t a) (hi : i < t.spaces.length) :
    ∃ o, a.own[i]? = some o :=
  ⟨_, getElem?_eq_getElem (h.length ▸ hi)⟩

theorem Simulates.read_fork [DecidableEq F] (h : Simulates t a) (hi : i < t.spaces.length)
    (hj : j ≤ t.spaces.length) :
    (a.fork i).read j k = a.read (if j = t.spaces.length then i else j) k := by
  obtain ⟨o, how⟩ := h.exists_own hi
  have hln := h.length
  simp only [Eager.read, Eager.fork, how, toList_some]
  by_cases hj' : j = t.spaces.length
  · simp [hj', hln, how]
  · rw [if_neg hj', getElem?_append_left (by omega)]

section Fork

variable [Fintype K] [DecidableEq F]

theorem look_fork (hi : t.spaces[i]? = some sp) (j : ℕ) (k : K) : (t.fork i sp).look j k =
    if j = i ∨ j = t.spaces.length then (sp k).map Mapping.protect else t.look j k := by
  have hln := (List.getElem?_eq_some_iff.mp hi).1
  rw [Store.look, Store.fork]
  rcases Nat.lt_trichotomy j t.spaces.length with hlt | rfl | hgt
  · rw [List.getElem?_append_left (by simpa using hlt), look_set hi]
    by_cases hj : j = i
    · rw [if_pos hj, if_pos (.inl hj)]
      rfl
    · rw [if_neg hj, if_neg (by omega)]
  · simp [protectAll]
  · rw [if_neg (by omega), Store.look, List.getElem?_eq_none (by simp; omega),
      List.getElem?_eq_none (by omega)]

theorem look_fork_cases (hi : t.spaces[i]? = some sp) (h : (t.fork i sp).look j k = some m) :
    (j ≠ i ∧ j ≠ t.spaces.length ∧ t.look j k = some m) ∨
      ((j = i ∨ j = t.spaces.length) ∧ ∃ m₀, t.look i k = some m₀ ∧ m = m₀.protect) := by
  rw [look_fork hi] at h
  split at h
  · obtain ⟨m₀, hm₀, rfl⟩ := map_eq_some_iff.mp h
    exact .inr ⟨‹_›, m₀, by rw [look_of_space hi, hm₀], rfl⟩
  · exact .inl ⟨by tauto, by tauto, h⟩

theorem exists_look_of_fork (hi : t.spaces[i]? = some sp) (h : (t.fork i sp).look j k = some m) :
    ∃ j₀ m₀, t.look j₀ k = some m₀ ∧ m.frame = m₀.frame ∧ m.shared = m₀.shared := by
  rcases look_fork_cases hi h with ⟨-, -, hm⟩ | ⟨-, m₀, hm₀, rfl⟩
  · exact ⟨j, m, hm, rfl, rfl⟩
  · exact ⟨i, m₀, hm₀, rfl, rfl⟩

theorem Simulates.uses_eq (h : Simulates t a) (hi : t.spaces[i]? = some sp)
    (hm : t.look j k = some m) : uses sp m.frame = if Holds k m.frame sp then 1 else 0 := by
  apply Fintype.sum_eq_single k
  intro l hl
  apply if_neg
  intro hhl
  obtain ⟨m', hm', hf⟩ := holds_iff.mp hhl
  exact hl (h.oneKey j i k l m m' hm (by rw [look_of_space hi, hm']) hf)

theorem Simulates.fork (h : Simulates t a) (hi : t.spaces[i]? = some sp) :
    Simulates (t.fork i sp) (a.fork i) := by
  have hln := (List.getElem?_eq_some_iff.mp hi).1
  constructor
  · obtain ⟨o, how⟩ := h.exists_own hln
    simp [Eager.fork, Store.fork, how, h.length]
  · intro j k m hm
    rcases look_fork_cases hi hm with ⟨-, hne, hm⟩ | ⟨hj, m₀, hm₀, rfl⟩
    · have hj : j < t.spaces.length := by
        obtain ⟨sp', hsp', -⟩ := exists_space hm
        exact (List.getElem?_eq_some_iff.mp hsp').1
      rw [h.read_fork hln hj.le, if_neg hne]
      exact h.reads j k m hm
    · rw [h.read_fork hln (by omega)]
      have hi' : (if j = t.spaces.length then i else j) = i := by
        split
        · rfl
        · tauto
      rw [hi']
      exact h.reads i k m₀ hm₀
  · intro j k m hm
    obtain ⟨j₀, m₀, hm₀, -, hs⟩ := exists_look_of_fork hi hm
    rw [hs]
    exact h.shared j₀ k m₀ hm₀
  · intro j₁ j₂ k l m m' hm hm' hf
    obtain ⟨i₁, m₁, hm₁, hf₁, -⟩ := exists_look_of_fork hi hm
    obtain ⟨i₂, m₂, hm₂, hf₂, -⟩ := exists_look_of_fork hi hm'
    exact h.oneKey i₁ i₂ k l m₁ m₂ hm₁ hm₂ (by rw [← hf₁, ← hf₂, hf])
  · intro j k m hm
    obtain ⟨j₀, m₀, hm₀, hf, -⟩ := exists_look_of_fork hi hm
    have hst := countP_set_eq hi (protectAll sp) (Holds k m₀.frame)
    rw [holds_protectAll] at hst
    rw [hf, Store.fork, countP_append, countP_singleton, holds_protectAll]
    dsimp only
    rw [h.uses_eq hi hm₀, h.counted j₀ k m₀ hm₀]
    omega
  · intro j₁ j₂ k m m' hm hm' hs
    obtain ⟨i₁, m₁, hm₁, hf₁, hs₁⟩ := exists_look_of_fork hi hm
    obtain ⟨i₂, m₂, hm₂, hf₂, -⟩ := exists_look_of_fork hi hm'
    rw [hf₁, hf₂]
    exact h.common i₁ i₂ k m₁ m₂ hm₁ hm₂ (hs₁ ▸ hs)
  · intro j₁ j₂ k m m' hm hm' hf hd hs
    rcases look_fork_cases hi hm with ⟨hne, hne', hm⟩ | ⟨-, m₀, -, rfl⟩
    · rcases look_fork_cases hi hm' with ⟨-, -, hm'⟩ | ⟨-, m₀, hm₀, rfl⟩
      · exact h.sole j₁ j₂ k m m' hm hm' hf hd hs
      · -- A frame writable elsewhere is not one of the forked space.
        exact absurd (h.sole j₁ i k m m₀ hm hm₀ hf hd hs) hne.symm
    · simp only [Mapping.protect, Bool.and_eq_true] at hd hs
      exact absurd hd.2 hs
  · intro j k hj
    have hj : j < t.spaces.length + 1 := by simpa [Store.fork] using hj
    rw [look_fork hi]
    split
    · rw [isSome_map, ← look_of_space hi]
      exact h.mapped i k hln
    · exact h.mapped j k (by omega)

end Fork

section Write

variable [DecidableEq K] [DecidableEq F]

theorem read_write_shared (hs : a.shared k) (hk : a.mapped k) :
    (a.write i k g).read j l = if l = k then some (g (a.common k)) else a.read j l := by
  rw [Eager.write, if_pos hs]
  by_cases hl : l = k
  · subst hl
    simp [Eager.read, hs, hk]
  · simp [Eager.read, hl]

theorem read_write_own (hs : ¬ a.shared k) :
    (a.write i k g).read j l = if j = i ∧ l = k then (a.read i k).map g else a.read j l := by
  rw [Eager.write, if_neg hs]
  by_cases hj : j = i
  · subst hj
    by_cases hl : l = k
    · subst hl
      by_cases hk : a.mapped l
      · simp [Eager.read, hs, hk, Option.map_map, comp_def]
      · simp [Eager.read, hk]
    · cases ho : a.own[j]? with
      | none | some o => simp [Eager.read, hl, ho]
  · simp [Eager.read, hj, Ne.symm hj]

theorem shared_write : (a.write i k g).shared = a.shared := by
  rw [Eager.write]
  split <;> rfl

theorem mapped_write : (a.write i k g).mapped = a.mapped := by
  rw [Eager.write]
  split <;> rfl

theorem Simulates.write (h : Simulates t a) (hm : t.look i k = some m) (hd : m.direct) :
    Simulates (t.write m.frame g) (a.write i k g) := by
  constructor
  · have hln : (a.write i k g).own.length = a.own.length := by
      rw [Eager.write]
      split
      · rfl
      · simp
    exact hln.trans h.length
  · intro j l m' hm'
    have hrd := h.reads i k m hm
    have hrd' := h.reads j l m' hm'
    have hsh := h.shared i k m hm
    have hk := h.mapped_of_look hm
    simp only [Store.write]
    by_cases hf : m'.frame = m.frame
    · obtain rfl : l = k := h.oneKey i j k l m m' hm hm' hf
      rw [hf, update_self]
      by_cases hs : a.shared l
      · rw [read_write_shared hs hk, if_pos rfl]
        rw [Eager.read, if_pos hk, if_pos hs] at hrd
        rw [some.inj hrd]
      · obtain rfl : j = i := h.sole i j l m m' hm hm' hf hd (hsh ▸ hs)
        rw [read_write_own hs, if_pos ⟨rfl, rfl⟩, hrd]
        rfl
    · rw [update_of_ne hf, ← hrd']
      by_cases hs : a.shared k
      · rw [read_write_shared hs hk, if_neg]
        rintro rfl
        exact hf (h.common i j l m m' hm hm' (hsh ▸ hs))
      · rw [read_write_own hs, if_neg]
        rintro ⟨rfl, rfl⟩
        exact hf (congrArg _ (some.inj (hm'.symm.trans hm)))
  · intro j l m' hm'
    rw [shared_write]
    exact h.shared j l m' hm'
  · exact h.oneKey
  · exact h.counted
  · exact h.common
  · exact h.sole
  · rw [mapped_write]
    exact h.mapped

end Write

section Own

variable [DecidableEq K] [DecidableEq F]

omit [DecidableEq F] in
theorem look_remap (t' : Store K F V) (hi : t.spaces[i]? = some sp)
    (ht' : t'.spaces = remap t i sp k m) (j : ℕ) (l : K) :
    t'.look j l = if j = i ∧ l = k then some m else t.look j l := by
  rw [Store.look, ht', remap, look_set hi]
  by_cases hj : j = i
  · subst hj
    by_cases hl : l = k
    · simp [hl]
    · simp [hl, look_of_space hi]
  · simp [hj]

theorem countP_remap (hi : t.spaces[i]? = some sp) (hm : sp k = some m) (m₁ : Mapping F) (l : K)
    (f : F) :
    (remap t i sp k m₁).countP (Holds l f) + (if l = k ∧ m.frame = f then 1 else 0) =
      t.spaces.countP (Holds l f) + if l = k ∧ m₁.frame = f then 1 else 0 := by
  have hst := countP_set_eq hi (update sp k (some m₁)) (Holds l f)
  by_cases hl : l = k
  · subst hl
    simpa [Holds, hm, remap] using hst
  · simpa [Holds, hl, remap] using hst

theorem Simulates.mapped_remap {t' : Store K F V} {m₁ : Mapping F} (h : Simulates t a)
    (hi : t.spaces[i]? = some sp) (hm : sp k = some m) (ht' : t'.spaces = remap t i sp k m₁)
    (j : ℕ) (l : K) (hj : j < t'.spaces.length) : (t'.look j l).isSome = a.mapped l := by
  rw [look_remap t' hi ht']
  split
  · rename_i heq
    rw [heq.2, h.mapped_of_look (i := i) (m := m) (by rw [look_of_space hi, hm])]
    rfl
  · exact h.mapped j l (by simpa [ht', remap] using hj)

theorem Simulates.own_inPlace {t' : Store K F V} (h : Simulates t a)
    (hi : t.spaces[i]? = some sp) (hm : sp k = some m) (hon : t.count m.frame ≤ 1)
    (ht' : t' = { t with spaces := remap t i sp k { m with direct := true } }) :
    Simulates t' a := by
  have hlk := look_remap t' hi (by rw [ht'])
  have hik : t.look i k = some m := by rw [look_of_space hi, hm]
  -- Every mapping is an old one, up to the right to write.
  have hold : ∀ j l m', t'.look j l = some m' →
      ∃ m₀, t.look j l = some m₀ ∧ m'.frame = m₀.frame ∧ m'.shared = m₀.shared := by
    intro j l m' hm'
    rw [hlk] at hm'
    split at hm'
    · rename_i heq
      obtain ⟨rfl, rfl⟩ := heq
      cases hm'
      exact ⟨m, hik, rfl, rfl⟩
    · exact ⟨m', hm', rfl, rfl⟩
  constructor
  · rw [h.length, ht']
    simp [remap]
  · intro j l m' hm'
    obtain ⟨m₀, hm₀, hf, -⟩ := hold j l m' hm'
    rw [hf, ht']
    exact h.reads j l m₀ hm₀
  · intro j l m' hm'
    obtain ⟨m₀, hm₀, -, hs⟩ := hold j l m' hm'
    rw [hs]
    exact h.shared j l m₀ hm₀
  · intro j₁ j₂ l₁ l₂ m₁ m₂ hm₁ hm₂ hf
    obtain ⟨n₁, hn₁, hf₁, -⟩ := hold j₁ l₁ m₁ hm₁
    obtain ⟨n₂, hn₂, hf₂, -⟩ := hold j₂ l₂ m₂ hm₂
    exact h.oneKey j₁ j₂ l₁ l₂ n₁ n₂ hn₁ hn₂ (by rw [← hf₁, ← hf₂, hf])
  · intro j l m' hm'
    obtain ⟨m₀, hm₀, hf, -⟩ := hold j l m' hm'
    have hct := countP_remap hi hm { m with direct := true } l m'.frame
    have hcn := h.counted j l m₀ hm₀
    rw [ht', hf]
    rw [hf] at hct
    dsimp only at hct ⊢
    omega
  · intro j₁ j₂ l m₁ m₂ hm₁ hm₂ hs
    obtain ⟨n₁, hn₁, hf₁, hs₁⟩ := hold j₁ l m₁ hm₁
    obtain ⟨n₂, hn₂, hf₂, -⟩ := hold j₂ l m₂ hm₂
    rw [hf₁, hf₂]
    exact h.common j₁ j₂ l n₁ n₂ hn₁ hn₂ (hs₁ ▸ hs)
  · intro j₁ j₂ l m₁ m₂ hm₁ hm₂ hf hd hs
    obtain ⟨n₂, hn₂, hf₂, -⟩ := hold j₂ l m₂ hm₂
    rw [hlk] at hm₁
    split at hm₁
    · rename_i heq
      obtain ⟨rfl, rfl⟩ := heq
      cases hm₁
      obtain ⟨sp₂, hsp₂, hk₂⟩ := exists_space hn₂
      rw [h.counted j₁ l m hik] at hon
      exact index_unique hon hi hsp₂ (holds_iff.mpr ⟨m, hm, rfl⟩)
        (holds_iff.mpr ⟨n₂, hk₂, hf₂.symm.trans hf⟩)
    · exact h.sole j₁ j₂ l m₁ n₂ hm₁ hn₂ (hf₂.symm.trans hf) hd hs
  · exact h.mapped_remap hi hm (by rw [ht'])

omit [DecidableEq K] in
theorem countP_holds_fresh (hfr : ∀ j l m', t.look j l = some m' → m'.frame ≠ fresh) (l : K) :
    t.spaces.countP (Holds l fresh) = 0 := by
  apply countP_eq_zero.mpr
  intro sp hmem hhl
  obtain ⟨m, hm, hf⟩ := holds_iff.mp hhl
  obtain ⟨j, hj⟩ := getElem?_of_mem hmem
  exact hfr j l m (by rw [look_of_space hj, hm]) hf

theorem Simulates.own_copy {t' : Store K F V} (h : Simulates t a)
    (hi : t.spaces[i]? = some sp) (hm : sp k = some m) (hs : ¬ m.shared)
    (hfr : ∀ j l m', t.look j l = some m' → m'.frame ≠ fresh)
    (ht' : t' = ⟨remap t i sp k ⟨fresh, m.shared, true⟩,
      update (update t.count fresh 1) m.frame (t.count m.frame - 1),
      update t.content fresh (t.content m.frame)⟩) : Simulates t' a := by
  have hlk := look_remap t' hi (by rw [ht'])
  have hik : t.look i k = some m := by rw [look_of_space hi, hm]
  have hne : m.frame ≠ fresh := hfr i k m hik
  -- A mapping is the new one, or an old one elsewhere.
  have hcs : ∀ j l m', t'.look j l = some m' →
      (j = i ∧ l = k ∧ m' = ⟨fresh, m.shared, true⟩) ∨
        (¬ (j = i ∧ l = k) ∧ t.look j l = some m' ∧ m'.frame ≠ fresh) := by
    intro j l m' hm'
    rw [hlk] at hm'
    split at hm'
    · rename_i heq
      exact .inl ⟨heq.1, heq.2, (some.inj hm').symm⟩
    · exact .inr ⟨‹_›, hm', hfr j l m' hm'⟩
  constructor
  · rw [h.length, ht']
    simp [remap]
  · intro j l m' hm'
    rw [ht']
    rcases hcs j l m' hm' with ⟨rfl, rfl, rfl⟩ | ⟨-, hold, hf⟩
    · dsimp only
      rw [update_self]
      exact h.reads j l m hik
    · dsimp only
      rw [update_of_ne hf]
      exact h.reads j l m' hold
  · intro j l m' hm'
    rcases hcs j l m' hm' with ⟨rfl, rfl, rfl⟩ | ⟨-, hold, -⟩
    · exact h.shared j l m hik
    · exact h.shared j l m' hold
  · intro j₁ j₂ l₁ l₂ m₁ m₂ hm₁ hm₂ hf
    rcases hcs j₁ l₁ m₁ hm₁ with ⟨rfl, rfl, rfl⟩ | ⟨-, hold₁, hf₁⟩
    · rcases hcs j₂ l₂ m₂ hm₂ with ⟨rfl, rfl, rfl⟩ | ⟨-, -, hf₂⟩
      · rfl
      · exact absurd hf hf₂
    · rcases hcs j₂ l₂ m₂ hm₂ with ⟨rfl, rfl, rfl⟩ | ⟨-, hold₂, -⟩
      · exact absurd hf.symm hf₁
      · exact h.oneKey j₁ j₂ l₁ l₂ m₁ m₂ hold₁ hold₂ hf
  · intro j l m' hm'
    have hct := countP_remap hi hm ⟨fresh, m.shared, true⟩ l m'.frame
    rw [ht']
    dsimp only at hct ⊢
    rcases hcs j l m' hm' with ⟨rfl, rfl, rfl⟩ | ⟨-, hold, hf⟩
    · rw [if_neg (by tauto), if_pos ⟨rfl, rfl⟩, countP_holds_fresh hfr] at hct
      rw [update_of_ne hne.symm, update_self]
      exact hct.symm
    · have hcn := h.counted j l m' hold
      rw [if_neg (show ¬ (l = k ∧ fresh = m'.frame) from fun hx => hf hx.2.symm)] at hct
      by_cases hfm : m'.frame = m.frame
      · obtain rfl : l = k := h.oneKey i j k l m m' hik hold hfm
        rw [if_pos ⟨rfl, hfm.symm⟩] at hct
        rw [hfm, update_self]
        rw [hfm] at hct hcn
        omega
      · rw [if_neg (fun hx => hfm hx.2.symm)] at hct
        rw [update_of_ne hfm, update_of_ne hf]
        omega
  · intro j₁ j₂ l m₁ m₂ hm₁ hm₂ hs₁
    rcases hcs j₁ l m₁ hm₁ with ⟨rfl, rfl, rfl⟩ | ⟨-, hold₁, -⟩
    · exact absurd hs₁ hs
    · rcases hcs j₂ l m₂ hm₂ with ⟨rfl, rfl, rfl⟩ | ⟨-, hold₂, -⟩
      · -- Whether a key is shared does not depend on the space.
        rw [h.shared j₁ l m₁ hold₁, ← h.shared j₂ l m hik] at hs₁
        exact absurd hs₁ hs
      · exact h.common j₁ j₂ l m₁ m₂ hold₁ hold₂ hs₁
  · intro j₁ j₂ l m₁ m₂ hm₁ hm₂ hf hd hns
    rcases hcs j₁ l m₁ hm₁ with ⟨rfl, rfl, rfl⟩ | ⟨-, hold₁, hf₁⟩
    · rcases hcs j₂ l m₂ hm₂ with ⟨rfl, -, -⟩ | ⟨-, -, hf₂⟩
      · rfl
      · exact absurd hf hf₂
    · rcases hcs j₂ l m₂ hm₂ with ⟨rfl, rfl, rfl⟩ | ⟨-, hold₂, -⟩
      · exact absurd hf.symm hf₁
      · exact h.sole j₁ j₂ l m₁ m₂ hold₁ hold₂ hf hd hns
  · exact h.mapped_remap hi hm (by rw [ht'])

end Own

end CopyOnWrite
