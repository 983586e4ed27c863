import Mathlib.Data.List.GetD
import SalernosKernel.PageCache
import SalernosKernel.PageCuts
import SalernosKernel.Config

/-! # Files of the tmpfs

`com_fs_tmpfs_read`, `com_fs_tmpfs_write` and `com_fs_tmpfs_truncate`: the contents are pages of a
page cache and the size is a field of its own. Offsets are numbers whose sum with a length fits 64
bits. -/
namespace TmpfsFile

open PageCache PageCuts RadixTree List

structure Node where
  type : VnodeType
  size : ℕ
  data : Cache

abbrev Answer := Except Errno (Option ℕ × List UInt8)

def readLoop (data : Cache) (stop : ℕ) : ℕ → ℕ → ℕ × List UInt8
  | 0, _ => (0, [])
  | fuel + 1, cur =>
    if cur < stop then
      let stopHere := nextCut archPageSize cur stop
      let bytes := match comFsPagecacheGet data (cur / archPageSize) with
        | some page =>
          (List.range (stopHere - cur)).map fun k => data.page page (cur % archPageSize + k)
        | none => List.replicate (stopHere - cur) 0
      let rest := readLoop data stop fuel stopHere
      (stopHere - cur + rest.1, bytes ++ rest.2)
    else (0, [])

def comFsTmpfsRead (node : Node) (off buflen : ℕ) : Answer :=
  if node.type = .dir then .error .EISDIR
  else if node.size ≤ off then .ok (some 0, [])
  else
    let buflen := if node.size ≤ off + buflen then
        (if off < node.size then node.size - off else 0)
      else buflen
    if buflen = 0 then .ok (some 0, [])
    else
      let result := readLoop node.data (off + buflen) buflen off
      .ok (some result.1, result.2)

def writeLoop (off : ℕ) (buf : List UInt8) (stop : ℕ) : ℕ → ℕ → Cache → Option (ℕ × Cache)
  | 0, _, data => some (0, data)
  | fuel + 1, cur, data =>
    if cur < stop then
      let stopHere := nextCut archPageSize cur stop
      (comFsPagecacheDefault data (cur / archPageSize)).bind fun r =>
        (writeLoop off buf stop fuel stopHere
          (r.2.store r.1 (cur % archPageSize) ((buf.drop (cur - off)).take (stopHere - cur)))).map
          fun rest => (stopHere - cur + rest.1, rest.2)
    else some (0, data)

def comFsTmpfsWrite (node : Node) (buf : List UInt8) (off : ℕ) : Option (Answer × Node) :=
  if node.type = .dir then some (.error .EISDIR, node)
  else if buf.length = 0 then some (.ok (none, []), node)
  else
    let size := if node.size < off + buf.length then off + buf.length else node.size
    (writeLoop off buf (off + buf.length) buf.length off node.data).map fun r =>
      (.ok (some r.1, []), { node with size := size, data := r.2 })

def comFsTmpfsTruncate (node : Node) (size : ℕ) : Answer × Node :=
  if node.type = .dir then (.error .EISDIR, node)
  else (.ok (none, []), { node with size := size })

def byteAt (data : Cache) (i : ℕ) : UInt8 :=
  match comFsPagecacheGet data (i / archPageSize) with
  | some page => data.page page (i % archPageSize)
  | none => 0

theorem page_pos : 0 < archPageSize := by decide

theorem piece_bytes (data : Cache) {cur stop : ℕ} :
    (match comFsPagecacheGet data (cur / archPageSize) with
      | some page => (range (nextCut archPageSize cur stop - cur)).map fun k =>
          data.page page (cur % archPageSize + k)
      | none => replicate (nextCut archPageSize cur stop - cur) 0) =
      (range' cur (nextCut archPageSize cur stop - cur)).map (byteAt data) := by
  have hby : ∀ k < nextCut archPageSize cur stop - cur, byteAt data (cur + k) =
      match comFsPagecacheGet data (cur / archPageSize) with
      | some page => data.page page (cur % archPageSize + k)
      | none => 0 := by
    intro k hk
    have hme : cur + k < nextCut archPageSize cur stop := by omega
    have hmd := mod_of_mem_piece page_pos (Nat.le_add_right cur k) hme
    rw [byteAt, div_of_mem_piece page_pos (Nat.le_add_right cur k) hme, hmd,
      Nat.add_sub_cancel_left]
  rw [List.range'_eq_map_range, map_map]
  cases hgt : comFsPagecacheGet data (cur / archPageSize) with
  | some page =>
    refine map_congr_left fun k hk => ?_
    simpa [hgt] using (hby k (mem_range.mp hk)).symm
  | none =>
    refine (eq_replicate_iff.mpr ⟨by simp, fun b hb => ?_⟩).symm
    obtain ⟨k, hk, rfl⟩ := mem_map.mp hb
    simpa [hgt] using hby k (mem_range.mp hk)

theorem readLoop_eq (data : Cache) (stop : ℕ) : ∀ fuel cur, stop - cur ≤ fuel →
    readLoop data stop fuel cur = (stop - cur, (range' cur (stop - cur)).map (byteAt data)) := by
  refine cut_induction page_pos stop (fun fuel cur h => ?_) (fun fuel cur h ih => ?_)
  · have hz : stop - cur = 0 := by omega
    cases fuel <;> simp [readLoop, hz, not_lt.mpr h]
  · have hlt := lt_nextCut page_pos h
    have hle : nextCut archPageSize cur stop ≤ stop := nextCut_le
    have hsm : nextCut archPageSize cur stop - cur + (stop - nextCut archPageSize cur stop) =
        stop - cur := by omega
    have hsa : cur + (nextCut archPageSize cur stop - cur) =
        nextCut archPageSize cur stop := by omega
    have hrn := List.range'_append_1 (s := cur) (m := nextCut archPageSize cur stop - cur)
      (n := stop - nextCut archPageSize cur stop)
    rw [hsa, hsm] at hrn
    simp only [readLoop, if_pos h, ih, piece_bytes, hsm, ← hrn, map_append]

theorem read_eq {node : Node} (h : node.type ≠ .dir) (off buflen : ℕ) :
    comFsTmpfsRead node off buflen = .ok (some (min buflen (node.size - off)),
      (range' off (min buflen (node.size - off))).map (byteAt node.data)) := by
  have hlp : ∀ n, readLoop node.data (off + n) n off =
      (n, (range' off n).map (byteAt node.data)) := by
    intro n
    simpa using readLoop_eq node.data (off + n) n off (by omega)
  unfold comFsTmpfsRead
  rw [if_neg h]
  rcases lt_or_ge off node.size with hlt | hge
  · rw [if_neg (not_le.mpr hlt)]
    rcases lt_or_ge (off + buflen) node.size with hin | hou
    · have hmn : min buflen (node.size - off) = buflen := by omega
      rw [if_neg (not_le.mpr hin), hmn]
      by_cases hz : buflen = 0
      · simp [hz]
      · simp [hz, hlp]
    · have hmn : min buflen (node.size - off) = node.size - off := by omega
      have hps : node.size - off ≠ 0 := by omega
      simp [hou, hlt, hmn, hps, hlp]
  · simp [hge]

section Write

variable {c c' d : Cache} {i j cur stop address : ℕ}

theorem byteAt_eq_look (c : Cache) (i : ℕ) :
    byteAt c i = ((c.look (i / archPageSize)).map fun r => r.2 (i % archPageSize)).getD 0 := by
  unfold byteAt Cache.look
  cases comFsPagecacheGet c (i / archPageSize) <;> rfl

theorem get_congr (c : Cache) (h : splitIndex 3 i = splitIndex 3 j) :
    comFsPagecacheGet c i = comFsPagecacheGet c j := by
  simp only [comFsPagecacheGet, kradixtreeGetNolock, h]

theorem cell_eq_iff : i % 2 ^ 48 = j % 2 ^ 48 ↔ i % archPageSize = j % archPageSize ∧
    splitIndex 3 (i / archPageSize) = splitIndex 3 (j / archPageSize) := by
  rw [splitIndex_three_eq_iff]
  simp only [archPageSize]
  omega

theorem byteAt_default (h : Defaults c j address c') (i : ℕ) : byteAt c' i = byteAt c i := by
  by_cases hlf : splitIndex 3 (i / archPageSize) = splitIndex 3 j
  · simp only [byteAt, h.get, if_pos hlf, get_congr c hlf]
    cases hgt : comFsPagecacheGet c j with
    | some a =>
      obtain rfl := h.found a hgt
      simp [h.kept a (c.allocated j a hgt)]
    | none => simp [h.zero hgt]
  · rw [byteAt_eq_look, byteAt_eq_look, h.look_of_ne hlf]

theorem byteAt_store (hgt : comFsPagecacheGet c j = some address) (start : ℕ)
    (bytes : List UInt8) (i : ℕ) : byteAt (c.store address start bytes) i =
      if splitIndex 3 (i / archPageSize) = splitIndex 3 j ∧ start ≤ i % archPageSize then
        (bytes[i % archPageSize - start]?).getD (byteAt c i) else byteAt c i := by
  by_cases hlf : splitIndex 3 (i / archPageSize) = splitIndex 3 j
  · have hi : comFsPagecacheGet c (i / archPageSize) = some address :=
      (get_congr c hlf).trans hgt
    simp [byteAt, hi, hlf, page_store]
  · rw [byteAt_eq_look, look_store_of_ne hgt hlf, ← byteAt_eq_look]
    simp [hlf]

/-- What a write of the bytes `f` from `cur` to `stop` leaves. Positions that share a byte with
none of those keep theirs. -/
structure Written (c : Cache) (cur stop : ℕ) (f : ℕ → UInt8) (d : Cache) : Prop where
  hit : stop ≤ 2 ^ 48 → ∀ i, cur ≤ i → i < stop → byteAt d i = f i
  frame : ∀ i, (∀ j, cur ≤ j → j < stop → j % 2 ^ 48 ≠ i % 2 ^ 48) → byteAt d i = byteAt c i

theorem Written.trans {f : ℕ → UInt8} {mid : ℕ} (h₁ : Written c cur mid f c')
    (h₂ : Written c' mid stop f d) (hcr : cur ≤ mid) (hst : mid ≤ stop) :
    Written c cur stop f d where
  hit hle i hi₁ hi₂ := by
    rcases lt_or_ge i mid with hlt | hge
    · have hap : ∀ j, mid ≤ j → j < stop → j % 2 ^ 48 ≠ i % 2 ^ 48 := by
        intro j hj₁ hj₂
        omega
      rw [h₂.frame i hap]
      exact h₁.hit (hst.trans hle) i hi₁ hlt
    · exact h₂.hit hle i hge hi₂
  frame i hi := by
    rw [h₂.frame i fun j hj₁ hj₂ => hi j (hcr.trans hj₁) hj₂]
    exact h₁.frame i fun j hj₁ hj₂ => hi j hj₁ (hj₂.trans_le hst)

theorem Written.round {f : ℕ → UInt8} {bytes : List UInt8}
    (h : Defaults c (cur / archPageSize) address c')
    (hln : bytes.length = nextCut archPageSize cur stop - cur)
    (hbt : ∀ k < bytes.length, bytes[k]? = some (f (cur + k))) :
    Written c cur (nextCut archPageSize cur stop) f
      (c'.store address (cur % archPageSize) bytes) := by
  have hgt : comFsPagecacheGet c' (cur / archPageSize) = some address := by simp [h.get]
  constructor
  · intro _ i hi₁ hi₂
    have hdv := div_of_mem_piece page_pos hi₁ hi₂
    have hmd := mod_of_mem_piece page_pos hi₁ hi₂
    have hk : bytes[i - cur]? = some (f i) := by
      simpa [Nat.add_sub_cancel' hi₁] using hbt (i - cur) (by omega)
    rw [byteAt_store hgt, hdv, hmd]
    simp [hk]
  · intro i hi
    rw [byteAt_store hgt, byteAt_default h]
    split
    · next hin =>
      -- a byte of the piece in this cell would have a position of the piece
      have hno : bytes[i % archPageSize - cur % archPageSize]? = none := by
        rw [List.getElem?_eq_none_iff]
        by_contra hlt
        have hme : cur + (i % archPageSize - cur % archPageSize) <
            nextCut archPageSize cur stop := by omega
        refine hi _ (Nat.le_add_right _ _) hme (cell_eq_iff.mpr ⟨?_, ?_⟩)
        · rw [mod_of_mem_piece page_pos (Nat.le_add_right _ _) hme]
          omega
        · rw [div_of_mem_piece page_pos (Nat.le_add_right _ _) hme, hin.1]
      simp [hno]
    · rfl

theorem writeLoop_spec (off : ℕ) (buf : List UInt8) : ∀ fuel cur,
    off + buf.length - cur ≤ fuel → off ≤ cur → ∀ c, ∃ d,
      writeLoop off buf (off + buf.length) fuel cur c = some (off + buf.length - cur, d) ∧
      Written c cur (off + buf.length) (fun i => buf.getD (i - off) 0) d := by
  refine cut_induction page_pos (off + buf.length) (fun fuel cur h hof c => ?_)
    (fun fuel cur h ih hof c => ?_)
  · have hz : off + buf.length - cur = 0 := by omega
    refine ⟨c, ?_, fun _ i hi₁ hi₂ => by omega, fun _ _ => rfl⟩
    cases fuel <;> simp [writeLoop, hz, not_lt.mpr h]
  · obtain ⟨address, c', hdf, hsp⟩ := default_spec c (cur / archPageSize)
    have hlt := lt_nextCut page_pos h
    have hle : nextCut archPageSize cur (off + buf.length) ≤ off + buf.length := nextCut_le
    obtain ⟨d, hd, hwr⟩ := ih (hof.trans hlt.le) (c'.store address (cur % archPageSize)
      ((buf.drop (cur - off)).take (nextCut archPageSize cur (off + buf.length) - cur)))
    refine ⟨d, ?_, (Written.round hsp ?_ fun k hk => ?_).trans hwr hlt.le hle⟩
    · simp only [writeLoop, if_pos h, hdf, Option.bind_some, hd, Option.map_some]
      congr 2
      omega
    · simp only [length_take, length_drop]
      omega
    · have hk' : k < nextCut archPageSize cur (off + buf.length) - cur ∧
          cur - off + k < buf.length := by
        simp only [length_take, length_drop] at hk
        omega
      have hps : cur + k - off = cur - off + k := by omega
      simp [hk'.1, hps, hk'.2]

theorem write_spec {node : Node} (hty : node.type ≠ .dir) {buf : List UInt8} (hbf : buf ≠ [])
    (off : ℕ) : ∃ d, comFsTmpfsWrite node buf off = some (.ok (some buf.length, []),
        { node with size := max node.size (off + buf.length), data := d }) ∧
      Written node.data off (off + buf.length) (fun i => buf.getD (i - off) 0) d := by
  obtain ⟨d, hd, hwr⟩ :=
    writeLoop_spec off buf buf.length off (by omega) (le_refl _) node.data
  refine ⟨d, ?_, hwr⟩
  have hsz : (if node.size < off + buf.length then off + buf.length else node.size) =
      max node.size (off + buf.length) := by
    split <;> omega
  simp [comFsTmpfsWrite, hty, hbf, hd, hsz]

end Write

end TmpfsFile
