import SalernosKernel.TmpfsFile

/-! # Sequences of calls on a tmpfs file

Over reads and writes below 2 ^ 48 a file is an array of bytes. -/
namespace TmpfsFile

open PageCache List

inductive Call where
  | read (off buflen : ℕ)
  | write (off : ℕ) (buf : List UInt8)
  | truncate (size : ℕ)

def call (node : Node) : Call → Option (Answer × Node)
  | .read off buflen => some (comFsTmpfsRead node off buflen, node)
  | .write off buf => comFsTmpfsWrite node buf off
  | .truncate size => some (comFsTmpfsTruncate node size)

def calls (node : Node) : List Call → Option (List Answer × Node)
  | [] => some ([], node)
  | c :: cs => (call node c).bind fun r => (calls r.2 cs).map fun rest => (r.1 :: rest.1, rest.2)

def newFile : Node := ⟨.file, 0, comFsPagecacheNew⟩

def Call.Writes (i : ℕ) : Call → Prop
  | .write off buf => off ≤ i ∧ i < off + buf.length
  | _ => False

def Call.writeEnd : Call → ℕ
  | .write off buf => if buf = [] then 0 else off + buf.length
  | _ => 0

section ByteArray

def arrayCall (l : List UInt8) : Call → Answer × List UInt8
  | .read off buflen => (.ok (some (min buflen (l.length - off)), (l.drop off).take buflen), l)
  | .write off buf =>
    if buf = [] then (.ok (none, []), l)
    else (.ok (some buf.length, []),
      (l ++ replicate (off - l.length) 0).take off ++ buf ++ l.drop (off + buf.length))
  | .truncate size => (.ok (none, []), (l ++ replicate (size - l.length) 0).take size)

def arrayCalls (l : List UInt8) : List Call → List Answer × List UInt8
  | [] => ([], l)
  | c :: cs =>
    ((arrayCall l c).1 :: (arrayCalls (arrayCall l c).2 cs).1, (arrayCalls (arrayCall l c).2 cs).2)

/-- A read or a write that ends at 2 ^ 48 or below. -/
def Call.InRange : Call → Prop
  | .read off buflen => off + buflen ≤ 2 ^ 48
  | .write off buf => off + buf.length ≤ 2 ^ 48
  | .truncate _ => False

structure Represents (node : Node) (l : List UInt8) : Prop where
  type : node.type = .file
  size : node.size = l.length
  bound : l.length ≤ 2 ^ 48
  byte : ∀ i < 2 ^ 48, byteAt node.data i = l.getD i 0

variable {node : Node} {l buf : List UInt8} {off : ℕ}

theorem byteAt_new (i : ℕ) : byteAt comFsPagecacheNew i = 0 := by
  have hno : comFsPagecacheGet comFsPagecacheNew (i / archPageSize) = none := get_blank _
  simp [byteAt, hno]

theorem represents_new : Represents newFile [] :=
  ⟨rfl, rfl, Nat.zero_le _, fun i _ => byteAt_new i⟩

theorem length_overwrite (hbf : buf ≠ []) :
    (arrayCall l (.write off buf)).2.length = max l.length (off + buf.length) := by
  simp only [arrayCall, if_neg hbf, length_append, length_take, length_replicate, length_drop]
  omega

theorem getD_overwrite (hbf : buf ≠ []) (i : ℕ) : (arrayCall l (.write off buf)).2.getD i 0 =
    if off ≤ i ∧ i < off + buf.length then buf.getD (i - off) 0 else l.getD i 0 := by
  simp only [arrayCall, if_neg hbf]
  have hfs : ((l ++ replicate (off - l.length) 0).take off).length = off := by
    simp only [length_take, length_append, length_replicate]
    omega
  rcases lt_or_ge i off with hlt | hge
  · have hou : ¬ (off ≤ i ∧ i < off + buf.length) := by omega
    rw [if_neg hou, append_assoc, getD_append _ _ _ _ (by omega)]
    simp only [getD_eq_getElem?_getD, getElem?_take, if_pos hlt]
    rcases lt_or_ge i l.length with hin | hps
    · rw [getElem?_append_left hin]
    · have hz : i - l.length < off - l.length := by omega
      simp [getElem?_append_right hps, hz, hps]
  · rw [append_assoc, getD_append_right _ _ _ _ (by omega), hfs]
    rcases lt_or_ge i (off + buf.length) with hin | hps
    · rw [if_pos ⟨hge, hin⟩, getD_append _ _ _ _ (by omega)]
    · have hou : ¬ (off ≤ i ∧ i < off + buf.length) := by omega
      have hpo : off + buf.length + (i - off - buf.length) = i := by omega
      rw [if_neg hou, getD_append_right _ _ _ _ (by omega)]
      simp [getD_eq_getElem?_getD, hpo]

theorem Represents.read (h : Represents node l) (off buflen : ℕ) :
    comFsTmpfsRead node off buflen = (arrayCall l (.read off buflen)).1 := by
  have hty : node.type ≠ .dir := by simp [h.type]
  rw [read_eq hty, h.size, arrayCall]
  congr 3
  refine ext_getElem (by simp) fun k hk _ => ?_
  have hln : k < min buflen (l.length - off) := by simpa using hk
  have hin : off + k < l.length := by omega
  have hbd := h.bound
  simp [h.byte (off + k) (by omega), hin]

theorem Represents.write (h : Represents node l) (hrn : off + buf.length ≤ 2 ^ 48) :
    ∃ node', comFsTmpfsWrite node buf off = some ((arrayCall l (.write off buf)).1, node') ∧
      Represents node' (arrayCall l (.write off buf)).2 := by
  have hty : node.type ≠ .dir := by simp [h.type]
  by_cases hbf : buf = []
  · exact ⟨node, by simp [comFsTmpfsWrite, hty, hbf, arrayCall], by simpa [arrayCall, hbf] using h⟩
  · obtain ⟨d, hd, hwr⟩ := write_spec hty hbf off
    refine ⟨{ node with size := max node.size (off + buf.length), data := d },
      by simp [hd, arrayCall, hbf], h.type, ?_, ?_, fun i hi => ?_⟩
    · simp [length_overwrite hbf, h.size]
    · have hbd := h.bound
      rw [length_overwrite hbf]
      omega
    · rw [getD_overwrite hbf]
      split
      · next hin => exact hwr.hit hrn i hin.1 hin.2
      · next hou =>
        rw [← h.byte i hi]
        exact hwr.frame i fun j hj₁ hj₂ => by omega

theorem Represents.call (h : Represents node l) {c : Call} (hc : c.InRange) :
    ∃ node', TmpfsFile.call node c = some ((arrayCall l c).1, node') ∧
      Represents node' (arrayCall l c).2 := by
  cases c with
  | read off buflen => exact ⟨node, by simp [TmpfsFile.call, h.read], h⟩
  | write off buf => exact h.write hc
  | truncate size => exact hc.elim

theorem Represents.calls {cs : List Call} (h : Represents node l) (hcs : ∀ c ∈ cs, c.InRange) :
    ∃ node', calls node cs = some ((arrayCalls l cs).1, node') ∧
      Represents node' (arrayCalls l cs).2 := by
  induction cs generalizing node l with
  | nil => exact ⟨node, rfl, h⟩
  | cons c cs ih =>
    obtain ⟨node₁, hcl, h₁⟩ := h.call (hcs c mem_cons_self)
    obtain ⟨node₂, hrs, h₂⟩ := ih h₁ fun c' hc' => hcs c' (mem_cons_of_mem c hc')
    exact ⟨node₂, by simp [calls, hcl, hrs, arrayCalls], h₂⟩

theorem length_arrayCall {c : Call} (hc : c.InRange) :
    (arrayCall l c).2.length = max l.length c.writeEnd := by
  cases c with
  | read off buflen => simp [arrayCall, Call.writeEnd]
  | write off buf =>
    by_cases hbf : buf = []
    · simp [arrayCall, Call.writeEnd, hbf]
    · simp [length_overwrite hbf, Call.writeEnd, hbf]
  | truncate size => exact hc.elim

theorem getD_arrayCall {c : Call} {i : ℕ} (hc : c.InRange) (hi : ¬ c.Writes i) :
    (arrayCall l c).2.getD i 0 = l.getD i 0 := by
  cases c with
  | read off buflen => rfl
  | write off buf =>
    by_cases hbf : buf = []
    · simp [arrayCall, hbf]
    · have hou : ¬ (off ≤ i ∧ i < off + buf.length) := hi
      rw [getD_overwrite hbf, if_neg hou]
  | truncate size => exact hc.elim

theorem length_arrayCalls {cs : List Call} (hcs : ∀ c ∈ cs, c.InRange) :
    (arrayCalls l cs).2.length = max l.length ((cs.map Call.writeEnd).foldr max 0) := by
  induction cs generalizing l with
  | nil => simp [arrayCalls]
  | cons c cs ih =>
    have hrs := ih (l := (arrayCall l c).2) fun c' hc' => hcs c' (mem_cons_of_mem c hc')
    simp only [arrayCalls, hrs, length_arrayCall (hcs c mem_cons_self), map_cons,
      foldr_cons, max_assoc]

theorem getD_arrayCalls {cs : List Call} {i : ℕ} (hcs : ∀ c ∈ cs, c.InRange)
    (hi : ∀ c ∈ cs, ¬ c.Writes i) : (arrayCalls l cs).2.getD i 0 = l.getD i 0 := by
  induction cs generalizing l with
  | nil => rfl
  | cons c cs ih =>
    have hrs := ih (l := (arrayCall l c).2) (fun c' hc' => hcs c' (mem_cons_of_mem c hc'))
      fun c' hc' => hi c' (mem_cons_of_mem c hc')
    exact hrs.trans (getD_arrayCall (hcs c mem_cons_self) (hi c mem_cons_self))

/-- A new file answers every sequence of calls as an array of bytes does. Its size is the largest
end of a write, and what was never written is zero. -/
theorem file_is_byteArray (cs : List Call) (hcs : ∀ c ∈ cs, c.InRange) :
    ∃ node, calls newFile cs = some ((arrayCalls [] cs).1, node) ∧
      node.size = (arrayCalls [] cs).2.length ∧
      node.size = (cs.map Call.writeEnd).foldr max 0 ∧
      ∀ i, (∀ c ∈ cs, ¬ c.Writes i) → (arrayCalls [] cs).2.getD i 0 = 0 := by
  obtain ⟨node, hru, h⟩ := represents_new.calls hcs
  refine ⟨node, hru, h.size, ?_, fun i hi => ?_⟩
  · rw [h.size, length_arrayCalls hcs]
    simp
  · rw [getD_arrayCalls hcs hi]
    simp

theorem file_is_byteArray_pageEnd : (∀ c ∈ [Call.write 4095 [1, 2], .read 4094 8], c.InRange) ∧
    ∃ node, calls newFile [.write 4095 [1, 2], .read 4094 8] =
        some ((arrayCalls [] [.write 4095 [1, 2], .read 4094 8]).1, node) ∧ node.size = 4097 := by
  have hcs : ∀ c ∈ [Call.write 4095 [1, 2], .read 4094 8], c.InRange := by
    simp [Call.InRange]
  obtain ⟨node, hru, _, hsz, _⟩ := file_is_byteArray _ hcs
  exact ⟨hcs, node, hru, by simp [hsz, Call.writeEnd]⟩

end ByteArray

section Truncate

def next (node : Node) (c : Call) : Option Node := (call node c).map Prod.snd

def Call.Bounded : Call → Prop
  | .read off buflen => off ≤ 2 ^ 48 ∧ buflen ≤ 2 ^ 48
  | .write off buf => off ≤ 2 ^ 48 ∧ buf.length ≤ 2 ^ 48
  | .truncate size => size ≤ 2 ^ 48

def Call.Touches (c : Call) (p : ℕ) : Prop := ∃ j, c.Writes j ∧ j % 2 ^ 48 = p % 2 ^ 48

def Discards (node : Node) (n : ℕ) : Prop :=
  ∀ p, n ≤ p → ∀ later, Runs.Reaches next (fun _ c => c.Bounded ∧ ¬ c.Touches p)
    (comFsTmpfsTruncate node n).2 later → p < later.size →
      comFsTmpfsRead later p 1 = .ok (some 1, [0])

structure Keeps (node : Node) (p : ℕ) (later : Node) : Prop where
  type : later.type = .file
  byte : byteAt later.data p = byteAt node.data p
  size : 2 ^ 48 ≤ p → later.size ≤ p

variable {node later later' : Node} {p n : ℕ}

theorem Keeps.truncate (h : Keeps node p later) (hn : n ≤ 2 ^ 48) :
    Keeps node p (comFsTmpfsTruncate later n).2 := by
  have hty : later.type ≠ .dir := by simp [h.type]
  simp only [comFsTmpfsTruncate, if_neg hty]
  exact ⟨h.type, h.byte, hn.trans⟩

theorem Keeps.next {c : Call} (h : Keeps node p later) (hc : c.Bounded ∧ ¬ c.Touches p)
    (hnx : TmpfsFile.next later c = some later') : Keeps node p later' := by
  have hty : later.type ≠ .dir := by simp [h.type]
  cases c with
  | read off buflen =>
    obtain rfl : later = later' := by simpa [TmpfsFile.next, call] using hnx
    exact h
  | write off buf =>
    by_cases hbf : buf = []
    · obtain rfl : later = later' := by
        simpa [TmpfsFile.next, call, comFsTmpfsWrite, hty, hbf] using hnx
      exact h
    · obtain ⟨d, hd, hwr⟩ := write_spec hty hbf off
      obtain rfl : _ = later' := by simpa [TmpfsFile.next, call, hd] using hnx
      refine ⟨h.type, ?_, fun hp => ?_⟩
      · rw [← h.byte]
        exact hwr.frame p fun j hj₁ hj₂ hj => hc.2 ⟨j, ⟨hj₁, hj₂⟩, hj⟩
      · -- a write that passes `p` would begin at 2 ^ 48 or below and write `p`
        have hsz := h.size hp
        have hof : off ≤ 2 ^ 48 := hc.1.1
        have hed : off + buf.length ≤ p := by
          by_contra hlt
          exact hc.2 ⟨p, ⟨hof.trans hp, not_le.mp hlt⟩, rfl⟩
        exact max_le hsz hed
  | truncate size =>
    obtain rfl : (comFsTmpfsTruncate later size).2 = later' := by
      simpa [TmpfsFile.next, call] using hnx
    exact h.truncate hc.1

theorem read_one (hty : node.type ≠ .dir) (hp : p < node.size) :
    comFsTmpfsRead node p 1 = .ok (some 1, [byteAt node.data p]) := by
  have hmn : min 1 (node.size - p) = 1 := by omega
  simp [read_eq hty, hmn]

/-- A truncation discards the data exactly when no byte is stored past the new size. -/
theorem truncate_discards_iff (node : Node) (htype : node.type = .file) (n : ℕ) (hn : n ≤ 2 ^ 48) :
    Discards node n ↔ ∀ p, n ≤ p → p < 2 ^ 48 → byteAt node.data p = 0 := by
  have hdr : node.type ≠ .dir := by simp [htype]
  constructor
  · intro h p hp hlt
    -- the file is made to end right after `p`
    have hgr : next (comFsTmpfsTruncate node n).2 (.truncate (p + 1)) =
        some { node with size := p + 1 } := by
      simp [next, call, comFsTmpfsTruncate, hdr]
    have hok : (Call.truncate (p + 1)).Bounded ∧ ¬ (Call.truncate (p + 1)).Touches p :=
      ⟨Nat.succ_le_of_lt hlt, fun ⟨_, hw, _⟩ => hw⟩
    have hrd := h p hp _ (.step .start hok hgr) (Nat.lt_succ_self p)
    have hon : comFsTmpfsRead { node with size := p + 1 } p 1 = .ok (some 1, [byteAt node.data p]) :=
      read_one hdr (Nat.lt_succ_self p)
    simpa using hon.symm.trans hrd
  · intro h p hp later hru hsz
    have hsa : Keeps node p (comFsTmpfsTruncate node n).2 := by
      simp only [comFsTmpfsTruncate, if_neg hdr]
      exact ⟨htype, rfl, hn.trans⟩
    have hkp : Keeps node p later :=
      hru.invariant (Keeps node p) hsa fun _ _ _ hk hok hnx => hk.next hok hnx
    have hlt : p < 2 ^ 48 := by
      by_contra hge
      exact absurd (hkp.size (Nat.not_lt.mp hge)) (Nat.not_le.mpr hsz)
    rw [read_one (by simp [hkp.type]) hsz, hkp.byte, h p hp hlt]

theorem truncate_discards_zeroTail : ∃ node, next newFile (.write 0 [7, 0]) = some node ∧
    node.size = 2 ∧ byteAt node.data 0 = 7 ∧ Discards node 1 := by
  have hrange : 0 + [(7 : UInt8), 0].length ≤ 2 ^ 48 := by decide
  obtain ⟨node, hwrite, hnode⟩ := represents_new.write hrange
  refine ⟨node, by simp [next, call, hwrite], hnode.size, hnode.byte 0 (by decide),
    (truncate_discards_iff node hnode.type 1 (by decide)).mpr fun p hp hlt => ?_⟩
  rw [hnode.byte p hlt]
  rcases p with _ | _ | p
  · exact absurd hp (by decide)
  · rfl
  · rfl

/-- A byte is written, the file is cut to nothing and made one byte long again: the byte is still
there. -/
theorem truncate_keeps_stale_byte :
    ∃ node, next newFile (.write 0 [7]) = some node ∧ ¬ Discards node 0 := by
  refine ⟨_, rfl, fun h => ?_⟩
  have hok : (Call.truncate 1).Bounded ∧ ¬ (Call.truncate 1).Touches 0 :=
    ⟨by simp [Call.Bounded], fun ⟨_, hw, _⟩ => hw⟩
  have hrd := h 0 (le_refl 0) _ (.step .start hok rfl) one_pos
  have hst : (7 : UInt8) = 0 := by
    injection hrd with hpr
    injection hpr with _ hbytes
    injection hbytes
  exact absurd hst (by decide)

end Truncate

end TmpfsFile
