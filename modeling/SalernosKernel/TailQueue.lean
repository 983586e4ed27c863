import Mathlib.Data.List.Basic

/-! # Tail queues threaded through word memory

A doubly linked queue whose elements live in a word memory. An element at `x` keeps the address of
its successor at `x` and, at `x + 8`, the address of the slot that points at it: the successor field
of its predecessor, or the head. The head is a separate pair of words known to the elements only by
its address. -/
namespace TailQueue

open Function
open List

@[ext]
structure Queue where
  mem : ℕ → ℕ
  first : ℕ
  last : ℕ

variable {head : ℕ} {q : Queue}

def readSlot (head : ℕ) (q : Queue) (slot : ℕ) : ℕ :=
  if slot = head then q.first else q.mem slot

def writeSlot (head : ℕ) (q : Queue) (slot v : ℕ) : Queue :=
  if slot = head then { q with first := v }
  else { q with mem := update q.mem slot v }

/-- The word after a slot: the back link of an element, or the head's own tail pointer. -/
def readBack (head : ℕ) (q : Queue) (slot : ℕ) : ℕ :=
  if slot = head then q.last else q.mem (slot + 8)

def Queue.store (q : Queue) (a v : ℕ) : Queue := { q with mem := update q.mem a v }

def init (head : ℕ) (q : Queue) : Queue := { q with first := 0, last := head }

def lastElem (head : ℕ) (q : Queue) : ℕ := readSlot head q (readBack head q q.last)

def insertTail (head : ℕ) (q : Queue) (x : ℕ) : Queue :=
  let q₁ := (q.store x 0).store (x + 8) q.last
  { writeSlot head q₁ q.last x with last := x }

def insertBefore (head : ℕ) (q : Queue) (c x : ℕ) : Queue :=
  let q₁ := (q.store (x + 8) (q.mem (c + 8))).store x c
  (writeSlot head q₁ (q₁.mem (c + 8)) x).store (c + 8) x

def remove (head : ℕ) (q : Queue) (x : ℕ) : Queue :=
  let q₁ := if q.mem x ≠ 0 then q.store (q.mem x + 8) (q.mem (x + 8))
    else { q with last := q.mem (x + 8) }
  writeSlot head q₁ (q₁.mem (x + 8)) (q₁.mem x)

def elems (m : ℕ → ℕ) : ℕ → ℕ → List ℕ
  | 0, _ => []
  | fuel + 1, v => if v = 0 then [] else v :: elems m fuel (m v)

def Chain (m : ℕ → ℕ) : ℕ → ℕ → List ℕ → ℕ → Prop
  | v, slot, [], last => v = 0 ∧ last = slot
  | v, slot, x :: xs, last => v = x ∧ m (x + 8) = slot ∧ Chain m (m x) x xs last

/-- Addresses an element may have: no two fields of different elements overlap. -/
structure Node (head x : ℕ) : Prop where
  aligned : 16 ∣ x
  pos : x ≠ 0
  ne_head : x ≠ head

variable {c last p slot v x y : ℕ}

theorem Node.ne_back (hx : Node head x) (hy : Node head y) : x ≠ y + 8 := by
  obtain ⟨i, hi⟩ := hx.aligned
  obtain ⟨j, hj⟩ := hy.aligned
  omega

structure Represents (head : ℕ) (q : Queue) (l : List ℕ) : Prop where
  chain : Chain q.mem q.first head l q.last
  nodup : l.Nodup
  node : ∀ x ∈ l, Node head x

theorem getLastD_mem_cons (l : List ℕ) (a : ℕ) : l.getLastD a ∈ a :: l := by
  cases l with
  | nil => simp
  | cons z zs => simp [getLastD_eq_getLast?, getLast?_eq_some_getLast]

variable {m m' : ℕ → ℕ} {k l post pre : List ℕ}

theorem chain_frame
    (h : ∀ x ∈ l, m' x = m x ∧ m' (x + 8) = m (x + 8)) (hc : Chain m v slot l last) :
    Chain m' v slot l last := by
  induction l generalizing v slot with
  | nil => exact hc
  | cons x xs ih =>
    obtain ⟨hv, hb, ht⟩ := hc
    obtain ⟨hn, hp⟩ := h x (by simp)
    refine ⟨hv, hp.trans hb, ?_⟩
    rw [hn]
    exact ih (fun y hy => h y (by simp [hy])) ht

theorem chain_last (hc : Chain m v slot l last) : last = l.getLastD slot := by
  induction l generalizing v slot with
  | nil => exact hc.2
  | cons x xs ih => rw [getLastD_cons]; exact ih hc.2.2

theorem chain_first (hc : Chain m v slot l last) : v = l.headD 0 := by
  cases l with
  | nil => exact hc.1
  | cons x xs => exact hc.1

theorem chain_drop (hc : Chain m v slot (pre ++ l) last) :
    ∃ v', Chain m v' (pre.getLastD slot) l last ∧
      v' = if pre = [] then v else m (pre.getLastD slot) := by
  induction pre generalizing v slot with
  | nil => exact ⟨v, hc, rfl⟩
  | cons x xs ih =>
    obtain ⟨v', hv, he⟩ := ih hc.2.2
    refine ⟨v', by rwa [getLastD_cons], ?_⟩
    rw [he, getLastD_cons]
    cases xs <;> simp

theorem chain_next (hc : Chain m v slot (k ++ x :: l) last) : m x = l.headD 0 := by
  obtain ⟨v', hv, _⟩ := chain_drop hc
  exact chain_first hv.2.2

theorem chain_back (hc : Chain m v slot (k ++ x :: l) last) : m (x + 8) = k.getLastD slot := by
  obtain ⟨v', hv, _⟩ := chain_drop hc
  exact hv.2.1

theorem chain_snoc (hc : Chain m v slot l last) (hnd : l.Nodup) (hs : slot ∉ l)
    (hb : ∀ y ∈ l, m' (y + 8) = m (y + 8))
    (hn : ∀ y ∈ l, m' y = if y = last then x else m y)
    (hx : m' x = 0) (hxb : m' (x + 8) = last) :
    Chain m' (if slot = last then x else v) slot (l ++ [x]) x := by
  induction l generalizing v slot with
  | nil =>
    obtain ⟨-, rfl⟩ := hc
    simp [Chain, hx, hxb]
  | cons y ys ih =>
    obtain ⟨rfl, hy, ht⟩ := hc
    obtain ⟨hyn, hnd⟩ := nodup_cons.mp hnd
    -- The tail slot is an element here, so the value of `slot` itself stays as it was.
    have hl : slot ≠ last := by
      have hm : last ∈ v :: ys := by
        rw [chain_last ht]
        exact getLastD_mem_cons ys v
      exact fun he => hs (he ▸ hm)
    refine ⟨if_neg hl, (hb v (by simp)).trans hy, ?_⟩
    rw [hn v (by simp)]
    exact ih ht hnd hyn (fun z hz => hb z (by simp [hz])) (fun z hz => hn z (by simp [hz]))

theorem chain_back_ne {ys : List ℕ}
    (hc : Chain m v y (ys ++ x :: post) last) (hnd : (slot :: y :: ys ++ x :: post).Nodup)
    (hp : p = m (x + 8)) : slot ≠ p := by
  have hpm : p ∈ y :: ys := by
    rw [hp, chain_back (k := ys) hc]
    exact getLastD_mem_cons ys y
  rintro rfl
  grind

theorem chain_remove {nx : ℕ}
    (hc : Chain m v slot (pre ++ x :: post) last) (hnd : (slot :: pre ++ x :: post).Nodup)
    (hz : 0 ∉ pre ++ post) (hnx : nx = m x) (hp : p = m (x + 8))
    (hb : ∀ y ∈ pre ++ post, m' (y + 8) = if y = nx then p else m (y + 8))
    (hn : ∀ y ∈ pre ++ post, m' y = if y = p then nx else m y) :
    Chain m' (if slot = p then nx else v) slot (pre ++ post) (if nx = 0 then p else last) := by
  induction pre generalizing v slot with
  | nil =>
    obtain ⟨rfl, hs, ht⟩ := hc
    have hsp : slot = p := hs.symm.trans hp.symm
    rw [if_pos hsp]
    cases post with
    | nil => simp [Chain, hnx ▸ ht.1, hsp]
    | cons z zs =>
      obtain ⟨hzx, hzb, hzt⟩ := ht
      have hzn : nx = z := hnx.trans hzx
      refine ⟨hzn, ?_, ?_⟩
      · rw [hb z (by simp), if_pos hzn.symm, hsp]
      · rw [hn z (by simp), if_neg (by grind), if_neg (by grind)]
        exact chain_frame (fun y hy => ⟨by rw [hn y (by simp [hy]), if_neg (by grind)],
          by rw [hb y (by simp [hy]), if_neg (by grind)]⟩) hzt
  | cons y ys ih =>
    have hnt := chain_next hc
    obtain ⟨rfl, hs, ht⟩ := hc
    rw [if_neg (chain_back_ne ht hnd hp)]
    refine ⟨rfl, ?_, ?_⟩
    · cases post <;> grind
    · rw [hn v (by simp)]
      exact ih ht (nodup_cons.mp hnd).2 (fun h => hz (by simp [mem_append.mp h]))
        (fun z hz => hb z (by simp [mem_append.mp hz]))
        (fun z hz => hn z (by simp [mem_append.mp hz]))

theorem chain_insert
    (hc : Chain m v slot (pre ++ c :: post) last) (hnd : (slot :: pre ++ c :: post).Nodup)
    (hp : p = m (c + 8)) (hx : m' x = c) (hxb : m' (x + 8) = p)
    (hb : ∀ y ∈ pre ++ c :: post, m' (y + 8) = if y = c then x else m (y + 8))
    (hn : ∀ y ∈ pre ++ c :: post, m' y = if y = p then x else m y) :
    Chain m' (if slot = p then x else v) slot (pre ++ x :: c :: post) last := by
  induction pre generalizing v slot with
  | nil =>
    obtain ⟨rfl, hs, ht⟩ := hc
    have hsp : slot = p := hs.symm.trans hp.symm
    rw [if_pos hsp]
    refine ⟨rfl, by rw [hxb, hsp], hx, ?_, ?_⟩
    · rw [hb v (by simp), if_pos rfl]
    · rw [hn v (by simp), if_neg (by grind)]
      exact chain_frame (fun y hy => ⟨by rw [hn y (by simp [hy]), if_neg (by grind)],
        by rw [hb y (by simp [hy]), if_neg (by grind)]⟩) ht
  | cons y ys ih =>
    obtain ⟨rfl, hs, ht⟩ := hc
    rw [if_neg (chain_back_ne ht hnd hp)]
    refine ⟨rfl, ?_, ?_⟩
    · rw [hb v (by simp), if_neg (by grind), hs]
    · rw [hn v (by simp)]
      exact ih ht (nodup_cons.mp hnd).2
        (fun z hz => hb z (mem_cons_of_mem _ hz)) (fun z hz => hn z (mem_cons_of_mem _ hz))

@[simp] theorem writeSlot_last (head : ℕ) (q : Queue) (slot v : ℕ) :
    (writeSlot head q slot v).last = q.last := by
  unfold writeSlot
  split <;> rfl

theorem insertTail_mem (head : ℕ) (q : Queue) (x a : ℕ) : (insertTail head q x).mem a =
    if q.last ≠ head ∧ a = q.last then x else if a = x + 8 then q.last
    else if a = x then 0 else q.mem a := by
  by_cases he : q.last = head
  · simp [insertTail, writeSlot, he, Queue.store, update_apply]
  · simp [insertTail, writeSlot, he, Queue.store, update_apply]

theorem insertTail_first (head : ℕ) (q : Queue) (x : ℕ) :
    (insertTail head q x).first = if head = q.last then x else q.first := by
  by_cases he : q.last = head
  · simp [insertTail, writeSlot, he, Queue.store]
  · simp [insertTail, writeSlot, he, Ne.symm he, Queue.store]

theorem insertBefore_eq (hxc : x ≠ c + 8) (hne : x ≠ c) : insertBefore head q c x =
    (writeSlot head ((q.store (x + 8) (q.mem (c + 8))).store x c) (q.mem (c + 8)) x).store
      (c + 8) x := by
  have hr : ((q.store (x + 8) (q.mem (c + 8))).store x c).mem (c + 8) = q.mem (c + 8) := by
    simp only [Queue.store, update_apply]
    grind
  simp only [insertBefore, hr]

theorem insertBefore_mem (hxc : x ≠ c + 8) (hne : x ≠ c) (a : ℕ) :
    (insertBefore head q c x).mem a = if a = c + 8 then x
    else if q.mem (c + 8) ≠ head ∧ a = q.mem (c + 8) then x
    else if a = x then c else if a = x + 8 then q.mem (c + 8) else q.mem a := by
  rw [insertBefore_eq hxc hne]
  by_cases he : q.mem (c + 8) = head
  · simp [writeSlot, Queue.store, he, update_apply]
  · simp [writeSlot, Queue.store, he, update_apply]

theorem insertBefore_first (hxc : x ≠ c + 8) (hne : x ≠ c) :
    (insertBefore head q c x).first = if head = q.mem (c + 8) then x else q.first := by
  rw [insertBefore_eq hxc hne]
  by_cases he : q.mem (c + 8) = head
  · simp [writeSlot, Queue.store, he]
  · simp [writeSlot, Queue.store, he, Ne.symm he]

theorem insertBefore_last (head : ℕ) (q : Queue) (c x : ℕ) :
    (insertBefore head q c x).last = q.last := by
  simp [insertBefore, Queue.store]

theorem remove_eq (hx : Node head x)
    (hn : q.mem x = 0 ∨ (q.mem x ≠ x ∧ Node head (q.mem x))) : remove head q x =
    writeSlot head (if q.mem x ≠ 0 then q.store (q.mem x + 8) (q.mem (x + 8))
      else { q with last := q.mem (x + 8) }) (q.mem (x + 8)) (q.mem x) := by
  rcases hn with h₀ | ⟨hne, hn⟩
  · simp [remove, h₀]
  · have h₁ : x ≠ q.mem x + 8 := hx.ne_back hn
    have h₂ : x + 8 ≠ q.mem x + 8 := by omega
    simp [remove, hn.pos, Queue.store, update_of_ne h₁, update_of_ne h₂]

theorem remove_mem (hx : Node head x)
    (hn : q.mem x = 0 ∨ (q.mem x ≠ x ∧ Node head (q.mem x))) (a : ℕ) :
    (remove head q x).mem a =
    if q.mem (x + 8) ≠ head ∧ a = q.mem (x + 8) then q.mem x
    else if q.mem x ≠ 0 ∧ a = q.mem x + 8 then q.mem (x + 8) else q.mem a := by
  rw [remove_eq hx hn]
  by_cases he : q.mem (x + 8) = head <;> by_cases h₀ : q.mem x = 0 <;>
    simp [writeSlot, Queue.store, he, h₀, update_apply]

theorem remove_first (hx : Node head x) (hn : q.mem x = 0 ∨ (q.mem x ≠ x ∧ Node head (q.mem x))) :
    (remove head q x).first = if head = q.mem (x + 8) then q.mem x else q.first := by
  rw [remove_eq hx hn]
  by_cases he : q.mem (x + 8) = head <;> by_cases h₀ : q.mem x = 0 <;>
    simp [writeSlot, Queue.store, he, h₀, eq_comm (a := head)]

theorem remove_last (hx : Node head x) (hn : q.mem x = 0 ∨ (q.mem x ≠ x ∧ Node head (q.mem x))) :
    (remove head q x).last = if q.mem x = 0 then q.mem (x + 8) else q.last := by
  rw [remove_eq hx hn]
  by_cases he : q.mem (x + 8) = head <;> by_cases h₀ : q.mem x = 0 <;>
    simp [writeSlot, Queue.store, he, h₀]

namespace Represents

variable {l pre post : List ℕ} {x c : ℕ}

theorem first_eq (h : Represents head q l) : q.first = l.headD 0 := chain_first h.chain

theorem last_eq (h : Represents head q l) : q.last = l.getLastD head := chain_last h.chain

section

variable (h : Represents head q (pre ++ x :: post))

include h

theorem next_eq : q.mem x = post.headD 0 :=
  chain_next h.chain

theorem back_eq :
    q.mem (x + 8) = pre.getLastD head := chain_back h.chain

theorem back_mem :
    q.mem (x + 8) = head ∨ q.mem (x + 8) ∈ pre := by
  rw [h.back_eq]
  exact mem_cons.mp (getLastD_mem_cons pre head)

end

theorem head_notMem (h : Represents head q l) : head ∉ l := fun hm => (h.node head hm).ne_head rfl

theorem last_mem (h : Represents head q l) : q.last = head ∨ q.last ∈ l := by
  rw [h.last_eq]
  exact mem_cons.mp (getLastD_mem_cons l head)

theorem frame (h : Represents head q l) {m : ℕ → ℕ}
    (hm : ∀ y ∈ l, m y = q.mem y ∧ m (y + 8) = q.mem (y + 8)) :
    Represents head { q with mem := m } l :=
  ⟨chain_frame hm h.chain, h.nodup, h.node⟩

theorem lastElem_nil (h : Represents head q []) : lastElem head q = 0 := by
  obtain ⟨hf, hl⟩ := h.chain
  simp [lastElem, readBack, readSlot, hl, hf]

theorem lastElem_snoc (h : Represents head q (l ++ [x])) : lastElem head q = x := by
  have hl : q.last = x := by simpa [getLastD_eq_getLast?] using h.last_eq
  have hx : x ≠ head := (h.node x (by simp)).ne_head
  have hb : q.mem (x + 8) = l.getLastD head := chain_back h.chain
  simp only [lastElem, readBack, hl, if_neg hx, hb]
  rcases eq_nil_or_concat l with rfl | ⟨ys, y, rfl⟩
  · simpa [readSlot] using h.first_eq
  · have hy : y ≠ head := (h.node y (by simp)).ne_head
    have hn : q.mem y = x := by
      have hc := h.chain
      rw [concat_eq_append, append_assoc, singleton_append] at hc
      exact chain_next hc
    simpa [readSlot, getLastD_eq_getLast?, hy] using hn

theorem init (head : ℕ) (q : Queue) : Represents head (init head q) [] :=
  ⟨⟨rfl, rfl⟩, nodup_nil, by simp⟩

theorem insertTail (h : Represents head q l) (hx : Node head x) (hf : x ∉ l) :
    Represents head (insertTail head q x) (l ++ [x]) := by
  have hs := h.head_notMem
  have hl : q.last ≠ x ∧ q.last ≠ x + 8 ∨ q.last = head := by
    rcases h.last_mem with he | hm
    · exact Or.inr he
    · exact Or.inl ⟨fun he => hf (he ▸ hm), (h.node _ hm).ne_back hx⟩
  refine ⟨?_, nodup_append.mpr ⟨h.nodup, by simp, by grind⟩, ?_⟩
  · rw [insertTail_first]
    refine chain_snoc h.chain h.nodup hs ?_ ?_ ?_ ?_
    · intro y hy
      have h₁ := hx.ne_back (h.node y hy)
      have h₂ : q.last = head ∨ q.last ≠ y + 8 := by
        rcases h.last_mem with he | hm
        · exact Or.inl he
        · exact Or.inr ((h.node _ hm).ne_back (h.node y hy))
      rw [insertTail_mem]
      grind
    · intro y hy
      have h₁ := (h.node y hy).ne_back hx
      rw [insertTail_mem]
      grind
    · rw [insertTail_mem]
      grind
    · rw [insertTail_mem]
      grind
  · intro y hy
    rcases mem_append.mp hy with hy | hy
    · exact h.node y hy
    · rwa [mem_singleton.mp hy]

theorem insertBefore (h : Represents head q (pre ++ c :: post)) (hx : Node head x)
    (hf : x ∉ pre ++ c :: post) :
    Represents head (insertBefore head q c x) (pre ++ x :: c :: post) := by
  have hs := h.head_notMem
  have hc := h.node c (by simp)
  have hxc : x ≠ c := by grind
  have hp := h.back_mem
  -- The slot that is redirected is the head or an element in front of `c`.
  have hpn : q.mem (c + 8) ≠ head → Node head (q.mem (c + 8)) ∧ q.mem (c + 8) ≠ x :=
    fun he => by
      have hm := hp.resolve_left he
      exact ⟨h.node _ (by simp [hm]), by grind⟩
  have hxb := hx.ne_back hc
  refine ⟨?_, ?_, ?_⟩
  · rw [insertBefore_first hxb hxc, insertBefore_last]
    refine chain_insert h.chain (nodup_cons.mpr ⟨hs, h.nodup⟩) rfl ?_ ?_ ?_ ?_
    · rw [insertBefore_mem hxb hxc]
      grind
    · have h₁ : q.mem (c + 8) = head ∨ q.mem (c + 8) ≠ x + 8 := by
        by_cases he : q.mem (c + 8) = head
        · exact Or.inl he
        · exact Or.inr ((hpn he).1.ne_back hx)
      rw [insertBefore_mem hxb hxc]
      grind
    · intro y hy
      have h₁ := hx.ne_back (h.node y hy)
      have h₂ : q.mem (c + 8) = head ∨ q.mem (c + 8) ≠ y + 8 := by
        by_cases he : q.mem (c + 8) = head
        · exact Or.inl he
        · exact Or.inr ((hpn he).1.ne_back (h.node y hy))
      rw [insertBefore_mem hxb hxc]
      grind
    · intro y hy
      have h₁ := (h.node y hy).ne_back hx
      have h₂ := (h.node y hy).ne_back hc
      rw [insertBefore_mem hxb hxc]
      grind
  · have := h.nodup
    grind
  · intro y hy
    have := h.node y
    grind

theorem next_node (h : Represents head q (pre ++ x :: post)) :
    q.mem x = 0 ∨ (q.mem x ≠ x ∧ Node head (q.mem x)) := by
  have hnd := h.nodup
  rw [h.next_eq]
  cases post with
  | nil => exact Or.inl rfl
  | cons z zs => exact Or.inr ⟨by grind, h.node z (by simp)⟩

theorem remove (h : Represents head q (pre ++ x :: post)) :
    Represents head (remove head q x) (pre ++ post) := by
  have hs := h.head_notMem
  have hx := h.node x (by simp)
  have hz : 0 ∉ pre ++ post := fun h₀ => (h.node 0 (by grind)).pos rfl
  have hp := h.back_mem
  have hxn := h.nodup
  -- Neither write of the removal hits the two link fields it reads afterwards.
  have hfx := h.next_node
  have hpn : q.mem (x + 8) = head ∨ (q.mem (x + 8) ≠ x ∧ Node head (q.mem (x + 8))) := by
    rcases hp with he | hm
    · exact Or.inl he
    · exact Or.inr ⟨by grind, h.node _ (by simp [hm])⟩
  refine ⟨?_, by grind, fun y hy => h.node y (by grind)⟩
  rw [remove_first hx hfx, remove_last hx hfx]
  refine chain_remove h.chain (nodup_cons.mpr ⟨hs, h.nodup⟩) hz rfl rfl ?_ ?_
  · intro y hy
    have hy' := h.node y (by grind)
    have h₁ : q.mem (x + 8) = head ∨ q.mem (x + 8) ≠ y + 8 := by
      rcases hpn with he | ⟨_, hm⟩
      · exact Or.inl he
      · exact Or.inr (hm.ne_back hy')
    rw [remove_mem hx hfx]
    grind
  · intro y hy
    have hy' := h.node y (by grind)
    have h₁ : q.mem x = 0 ∨ y ≠ q.mem x + 8 := by
      rcases hfx with h₀ | ⟨_, hm⟩
      · exact Or.inl h₀
      · exact Or.inr (hy'.ne_back hm)
    rw [remove_mem hx hfx]
    grind

/-! Frames: outside the link fields of the elements concerned nothing is written. -/

variable {a : ℕ}

theorem insertTail_frame (h : Represents head q l)
    (ha : ∀ y ∈ l ++ [x], a ≠ y ∧ a ≠ y + 8) : (TailQueue.insertTail head q x).mem a = q.mem a := by
  have hx := ha x (by simp)
  have hl : q.last = head ∨ a ≠ q.last := by
    rcases h.last_mem with he | hm
    · exact Or.inl he
    · exact Or.inr (ha _ (by simp [hm])).1
  rw [insertTail_mem]
  grind

theorem insertBefore_frame (h : Represents head q (pre ++ c :: post)) (hx : Node head x)
    (hf : x ∉ pre ++ c :: post) (ha : ∀ y ∈ pre ++ x :: c :: post, a ≠ y ∧ a ≠ y + 8) :
    (TailQueue.insertBefore head q c x).mem a = q.mem a := by
  have hc := ha c (by simp)
  have hxa := ha x (by simp)
  have hp : q.mem (c + 8) = head ∨ a ≠ q.mem (c + 8) :=
    h.back_mem.imp id fun hm => (ha _ (mem_append_left _ hm)).1
  rw [insertBefore_mem (hx.ne_back (h.node c (by simp))) (by grind)]
  grind

theorem remove_frame (h : Represents head q (pre ++ x :: post))
    (ha : ∀ y ∈ pre ++ post, a ≠ y ∧ a ≠ y + 8) : (TailQueue.remove head q x).mem a = q.mem a := by
  have hp : q.mem (x + 8) = head ∨ a ≠ q.mem (x + 8) :=
    h.back_mem.imp id fun hm => (ha _ (mem_append_left _ hm)).1
  have hn : q.mem x = 0 ∨ a ≠ q.mem x + 8 := by
    rw [h.next_eq]
    cases post with
    | nil => exact Or.inl rfl
    | cons z zs => exact Or.inr (ha z (by simp)).2
  rw [remove_mem (h.node x (by simp)) h.next_node]
  grind

theorem elems_eq (h : Represents head q l) {fuel : ℕ} (hf : l.length ≤ fuel) :
    elems q.mem fuel q.first = l := by
  have aux : ∀ (l : List ℕ) (fuel v slot last : ℕ), (∀ x ∈ l, x ≠ 0) → l.length ≤ fuel →
      Chain q.mem v slot l last → elems q.mem fuel v = l := by
    intro l
    induction l with
    | nil =>
      intro fuel v slot last _ _ hc
      cases fuel <;> simp [elems, hc.1]
    | cons y ys ih =>
      intro fuel v slot last hz hf hc
      obtain ⟨rfl, _, ht⟩ := hc
      cases fuel with
      | zero => simp at hf
      | succ fuel =>
        rw [elems, if_neg (hz v (by simp)),
          ih fuel _ _ _ (fun x hx => hz x (by simp [hx])) (by simpa using hf) ht]
  exact aux l fuel _ _ _ (fun x hx => (h.node x hx).pos) hf h.chain

end Represents

end TailQueue
