import Mathlib.Data.BitVec

/-! # The hash map

`lib/hashmap.c` with any hash function, and with allocations that succeed. The hash that an entry
stores is that of its key, so that comparing it changes nothing. -/
namespace Hashmap

open List Function

abbrev Key := List UInt8

structure State (V : Type) where
  numEntries : ℕ
  entries : ℕ → List (Key × V)

inductive Op (V : Type) where
  | put (key : Key) (value : V)
  | set (key : Key) (value : V)
  | get (key : Key)
  | default (key : Key) (value : V)
  | remove (key : Key)

variable {V : Type}

def setValue (key : Key) (value : V) : List (Key × V) → List (Key × V)
  | [] => []
  | (k, v) :: l => if k = key then (k, value) :: l else (k, v) :: setValue key value l

def offset (getHash : Key → BitVec 64) (capacity : BitVec 64) (key : Key) : ℕ :=
  (getHash key &&& (capacity - 1)).toNat

variable (off : Key → ℕ) (h : State V) (key : Key) (value : V)

def khashmapGet : Option V := (h.entries (off key)).lookup key

def setBucket (l : List (Key × V)) (numEntries : ℕ) : State V :=
  ⟨numEntries, update h.entries (off key) l⟩

def khashmapSet : Option (State V) :=
  (khashmapGet off h key).map fun _ =>
    setBucket off h key (setValue key value (h.entries (off key))) h.numEntries

def khashmapPut : State V :=
  (khashmapSet off h key value).getD
    (setBucket off h key ((key, value) :: h.entries (off key)) (h.numEntries + 1))

def khashmapRemove : Option (State V) :=
  (khashmapGet off h key).map fun _ =>
    setBucket off h key ((h.entries (off key)).eraseP (·.1 = key))
      (h.numEntries - 1)

/-- The state after an operation, and what it returns: nothing for `ENOENT`. -/
def run : Op V → State V × Option (Option V)
  | .put key value => (khashmapPut off h key value, some none)
  | .set key value => ((khashmapSet off h key value).getD h,
      (khashmapSet off h key value).map fun _ => none)
  | .get key => (h, (khashmapGet off h key).map some)
  | .default key value =>
    match khashmapGet off h key with
    | some v => (h, some (some v))
    | none =>
      let h' := khashmapPut off h key value
      (h', (khashmapGet off h' key).map some)
  | .remove key => ((khashmapRemove off h key).getD h,
      (khashmapRemove off h key).map fun _ => none)

/-- The same on a map from keys to values. -/
def apply (f : Key → Option V) : Op V → (Key → Option V) × Option (Option V)
  | .put key value => (update f key (some value), some none)
  | .set key value =>
    (if (f key).isSome then update f key (some value) else f, (f key).map fun _ => none)
  | .get key => (f, (f key).map some)
  | .default key value =>
    (update f key (some ((f key).getD value)), some (some ((f key).getD value)))
  | .remove key => (update f key none, (f key).map fun _ => none)

structure Stores (f : Key → Option V) : Prop where
  get : ∀ k, khashmapGet off h k = f k
  nodup : ∀ i, ((h.entries i).map Prod.fst).Nodup
  home : ∀ i, ∀ e ∈ h.entries i, off e.1 = i
  count : ∃ s : Finset Key, s.card = h.numEntries ∧ ∀ k, k ∈ s ↔ (f k).isSome

variable {off h key value} {f : Key → Option V} {l : List (Key × V)}

theorem lookup_setValue (k : Key) : (setValue key value l).lookup k =
    if k = key then (l.lookup key).map fun _ => value else l.lookup k := by
  induction l with
  | nil => simp [setValue]
  | cons e l ih =>
    rw [setValue]
    grind

theorem keys_setValue : (setValue key value l).map Prod.fst = l.map Prod.fst := by
  induction l with
  | nil => rfl
  | cons e l ih =>
    rw [setValue]
    split_ifs <;> simp [ih]

theorem lookup_isSome : (l.lookup key).isSome ↔ key ∈ l.map Prod.fst := by
  induction l with
  | nil => simp
  | cons e l ih => grind

theorem lookup_eraseP (hnd : (l.map Prod.fst).Nodup) (k : Key) :
    (l.eraseP (·.1 = key)).lookup k = if k = key then none else l.lookup k := by
  induction l with
  | nil => simp
  | cons e l ih =>
    obtain ⟨hne, hnd⟩ := nodup_cons.mp hnd
    have hno : l.lookup e.1 = none := Option.not_isSome_iff_eq_none.mp (mt lookup_isSome.mp hne)
    rw [eraseP_cons]
    grind

theorem Stores.bucket {x : Option V} {n : ℕ} (hs : Stores off h f)
    (hget : ∀ k, l.lookup k = if k = key then x else (h.entries (off key)).lookup k)
    (hnd : (l.map Prod.fst).Nodup)
    (hn : n + (f key).isSome.toNat = h.numEntries + x.isSome.toNat) :
    Stores off (setBucket off h key l n) (update f key x) := by
  have hent : ∀ i, (setBucket off h key l n).entries i =
      if i = off key then l else h.entries i := fun i => update_apply ..
  refine ⟨fun k => ?_, fun i => ?_, fun i e he => ?_, ?_⟩
  · rw [khashmapGet, hent, update_apply, ← hs.get k, khashmapGet]
    split_ifs with ho hk hk
    · rw [hget, if_pos hk]
    · rw [hget, if_neg hk, ho]
    · exact absurd (hk ▸ rfl) ho
    · rfl
  · have := hs.nodup i
    rw [hent]
    split_ifs <;> assumption
  · rw [hent] at he
    split_ifs at he with hi
    · have hsm := lookup_isSome.mpr (mem_map_of_mem he)
      rw [hget] at hsm
      split_ifs at hsm with hk
      · rw [hk, hi]
      · obtain ⟨e', he', heq⟩ := mem_map.mp (lookup_isSome.mp hsm)
        rw [← heq, hs.home _ e' he', hi]
    · exact hs.home i e he
  · obtain ⟨s, hs, hmem⟩ := hs.count
    cases x with
    | none =>
      refine ⟨s.erase key, ?_, fun k => by grind⟩
      have := hmem key
      rw [Finset.card_erase_eq_ite]
      cases hf : f key <;> simp_all [setBucket]
      omega
    | some v =>
      refine ⟨insert key s, ?_, fun k => by grind⟩
      have := hmem key
      rw [Finset.card_insert_eq_ite]
      cases hf : f key <;> simp_all [setBucket]

theorem Stores.put (key : Key) (value : V) (hs : Stores off h f) :
    Stores off (khashmapPut off h key value) (update f key (some value)) := by
  have hget := hs.get key
  rw [khashmapPut, khashmapSet, hget]
  rw [khashmapGet] at hget
  cases hf : f key with
  | none =>
    refine hs.bucket (fun k => by grind) ?_ (by simp [hf])
    rw [map_cons, nodup_cons, ← lookup_isSome, hget, hf]
    exact ⟨by simp, hs.nodup _⟩
  | some v =>
    refine hs.bucket (fun k => ?_) ?_ (by simp [hf])
    · rw [lookup_setValue, hget, hf]
      rfl
    · rw [keys_setValue]
      exact hs.nodup _

theorem Stores.remove {v : V} (hs : Stores off h f) (hf : f key = some v) :
    Stores off (setBucket off h key
      ((h.entries (off key)).eraseP (·.1 = key)) (h.numEntries - 1)) (update f key none) := by
  obtain ⟨s, hcr, hmem⟩ := hs.count
  have hpos := Finset.card_pos.mpr ⟨key, (hmem key).mpr (hf ▸ rfl)⟩
  refine hs.bucket (lookup_eraseP (hs.nodup _)) ?_ (by simp [hf]; omega)
  exact (hs.nodup _).sublist (eraseP_sublist.map _)

theorem Stores.run (hs : Stores off h f) (op : Op V) :
    (run off h op).2 = (apply f op).2 ∧ Stores off (run off h op).1 (apply f op).1 := by
  cases op with
  | put key value => exact ⟨rfl, hs.put key value⟩
  | set key value =>
    have hput := hs.put key value
    rw [khashmapPut, khashmapSet, hs.get] at hput
    rw [Hashmap.run, apply, khashmapSet, hs.get]
    cases hf : f key <;> simp_all
  | get key => exact ⟨congrArg (Option.map some) (hs.get key), hs⟩
  | default key value =>
    have hput := hs.put key value
    rw [Hashmap.run, apply, hs.get]
    cases hf : f key with
    | none => exact ⟨by simp [hput.get], hput⟩
    | some v =>
      have hup : update f key (some v) = f := hf ▸ update_eq_self key f
      exact ⟨rfl, hup.symm ▸ hs⟩
  | remove key =>
    rw [Hashmap.run, apply, khashmapRemove, hs.get]
    cases hf : f key with
    | none =>
      have hup : update f key none = f := hf ▸ update_eq_self key f
      exact ⟨rfl, hup.symm ▸ hs⟩
    | some v => exact ⟨rfl, hs.remove hf⟩

/-- After every list of operations on an empty map, the next one returns what it returns on the
abstract map, and every bucket is one of the array. -/
theorem hashmap_is_map (getHash : Key → BitVec 64) (capacity : BitVec 64)
    (hcapacity : capacity ≠ 0) (ops : List (Op V)) :
    let off := offset getHash capacity
    let h := ops.foldl (fun h op => (run off h op).1) ⟨0, fun _ => []⟩
    let f := ops.foldl (fun f op => (apply f op).1) fun _ => none
    Stores off h f ∧ (∀ op, (run off h op).2 = (apply f op).2) ∧ ∀ k, off k < capacity.toNat := by
  intro off h f
  have hrun : ∀ h f, Stores off h f → Stores off (ops.foldl (fun h op => (run off h op).1) h)
      (ops.foldl (fun f op => (apply f op).1) f) := by
    induction ops with
    | nil => exact fun h f hs => hs
    | cons op ops ih => exact fun h f hs => ih _ _ (hs.run op).2
  have hs : Stores off h f := hrun _ _
    ⟨fun _ => rfl, fun _ => nodup_nil, fun _ _ h => absurd h not_mem_nil, ∅, rfl, by simp⟩
  refine ⟨hs, fun op => (hs.run op).1, fun k => ?_⟩
  have hle : off k ≤ (capacity - 1).toNat := (BitVec.toNat_and ..).trans_le Nat.and_le_right
  bv_omega

/-- Both keys are in one bucket. -/
theorem hashmap_is_map_bucket :
    let off := offset (fun _ => 21) 16
    let h := [Op.put [1] 7, .put [2] 8, .remove [1]].foldl (fun h op => (run off h op).1)
      ⟨0, fun _ => []⟩
    off [1] = 5 ∧ off [2] = 5 ∧ (run off h (.get [2])).2 = some (some 8) :=
  ⟨rfl, rfl, (hashmap_is_map (fun _ => 21) 16 (by decide) _).2.1 (.get [2])⟩

end Hashmap
