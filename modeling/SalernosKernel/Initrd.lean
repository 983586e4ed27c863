import Mathlib.Algebra.Order.Ring.Nat
import Mathlib.Data.List.GetD
import Mathlib.Data.List.Induction
import Mathlib.Data.List.TakeWhile
import SalernosKernel.Vfs

/-! # Reading the initial ramdisk

The loop of `com_fs_initrd_make` of `com/fs/initrd.c` over the archive in memory: the headers it
visits and the path it takes for each entry. -/
namespace Initrd

open Vfs List
open BitVec (ofNat)

def GNUTAR_SYMLINK : UInt8 := 50

def GNUTAR_LONG_NAME : UInt8 := 76

def GNUTAR_LONG_LINK : UInt8 := 75

def GNUTAR_DIR : UInt8 := 53

def octAtoi : Bytes → ℕ → BitVec 64 → BitVec 64
  | _, 0, val => val
  | [], _, val => val
  | c :: s, len + 1, val =>
    if c = 0 then val else octAtoi s len (val * 8#64 + (c.toBitVec.signExtend 64 - 48#64))

/-! The fields of `struct tar_header`, of the memory from the header on. -/

def name (hdr : Bytes) : Bytes := hdr.take 100

def size (hdr : Bytes) : ℕ := (octAtoi (hdr.drop 124) 11 0#64).toNat

def type (hdr : Bytes) : UInt8 := hdr.getD 156 0

def linkname (hdr : Bytes) : Bytes := (hdr.drop 157).takeWhile (· ≠ 0)

def headerPath (hdr : Bytes) : Bytes :=
  if (name hdr).getD 99 0 = 0 then (name hdr).takeWhile (· ≠ 0) else name hdr

def blocks (x : ℕ) : ℕ := x % 2 ^ 64 / 512 * 512

structure Entry where
  hdr : ℕ
  path : Bytes
  deriving DecidableEq

structure Visit where
  headers : List ℕ
  entry : Option Entry
  deriving DecidableEq

def skip (i fileSize : ℕ) : ℕ := (i + 512 + blocks (fileSize + 511)) % 2 ^ 64

def visit (tar : Bytes) (i : ℕ) : Visit × ℕ :=
  let hdr := tar.drop i
  if type hdr = GNUTAR_LONG_LINK then (⟨[i], none⟩, skip i 0)
  else if type hdr = GNUTAR_LONG_NAME then
    let path := (tar.drop (i + 512)).take (size hdr)
    let i' := (i + 512 + blocks (size hdr + 512)) % 2 ^ 64
    (⟨[i, i'], some ⟨i', path⟩⟩, skip i' (size (tar.drop i')))
  else
    (⟨[i], some ⟨i, headerPath hdr⟩⟩, skip i (size hdr))

def visits (tar : Bytes) (tarsize : ℕ) : ℕ → ℕ → Option (List Visit)
  | 0, _ => none
  | rounds + 1, i =>
    if tarsize ≤ i then some []
    else if (tar.drop i).headD 0 = 0 then some [⟨[i], none⟩]
    else (visits tar tarsize rounds (visit tar i).2).map ((visit tar i).1 :: ·)

def IsOctal (c : UInt8) : Prop := 48 ≤ c.toNat ∧ c.toNat ≤ 55
  deriving Decidable

def octal (digits : Bytes) : ℕ := digits.foldl (fun n c => n * 8 + (c.toNat - 48)) 0

def OctalField (field : Bytes) (n : ℕ) : Prop :=
  ∃ digits, (∀ c ∈ digits, IsOctal c) ∧ octal digits = n ∧ digits.length ≤ 11 ∧
    digits <+: field ∧ (digits.length < 11 → digits ++ [0] <+: field)

def IsLong (block : Bytes) : Prop :=
  type block = GNUTAR_LONG_NAME ∨ type block = GNUTAR_LONG_LINK
  deriving Decidable

structure Record where
  block : Bytes
  data : Bytes
  padding : Bytes
  length_block : block.length = 512
  named : block.headD 0 ≠ 0
  octal_size : OctalField ((block.drop 124).take 12) data.length
  padded : (data.length + padding.length) % 512 = 0
  short : padding.length < 512
  terminated : IsLong block → ∃ text : Bytes, 0 ∉ text ∧ data = text ++ [0]

def Record.bytes (r : Record) : Bytes := r.block ++ r.data ++ r.padding

def Record.text (r : Record) : Bytes := r.data.takeWhile (· ≠ 0)

def zeroBlock : Bytes := replicate 512 0

/-- An entry and the long records before it, at most one of each kind. -/
structure Member where
  before : List Record
  entry : Record
  long : ∀ r ∈ before, IsLong r.block
  once : (before.map fun r => type r.block).Nodup
  plain : ¬ IsLong entry.block

def Member.records (m : Member) : List Record := m.before ++ [m.entry]

structure Archive where
  members : List Member
  rest : Bytes
  fits : ((members.flatMap Member.records).flatMap Record.bytes).length + 512 + rest.length < 2 ^ 64

def Archive.records (a : Archive) : List Record := a.members.flatMap Member.records

def Archive.tar (a : Archive) : Bytes :=
  a.records.flatMap Record.bytes ++ (zeroBlock ++ a.rest)

def offsets : ℕ → List Record → List ℕ
  | off, [] => [off]
  | off, r :: rs => off :: offsets (off + r.bytes.length) rs

def places : ℕ → List Member → List (ℕ × Member)
  | _, [] => []
  | off, m :: ms => (off + (m.before.flatMap Record.bytes).length, m) ::
      places (off + (m.records.flatMap Record.bytes).length) ms

structure Decoded (tar : Bytes) (e : Entry) (place : ℕ × Member) : Prop where
  hdr : e.hdr = place.1
  path : ∀ r ∈ place.2.before, type r.block = GNUTAR_LONG_NAME → e.path = r.text
  link : ∀ r ∈ place.2.before, type r.block = GNUTAR_LONG_LINK →
    type place.2.entry.block = GNUTAR_SYMLINK → linkname (tar.drop e.hdr) = r.text

def DecodesFrom (tar : Bytes) (off : ℕ) (members : List Member) : Prop :=
  ∃ rounds vs, visits tar tar.length rounds off = some vs ∧
    vs.flatMap Visit.headers = offsets off (members.flatMap Member.records) ∧
    Forall₂ (Decoded tar) (vs.filterMap Visit.entry) (places off members)

def DecodesExactly (a : Archive) : Prop := DecodesFrom a.tar 0 a.members

variable {digits rest : Bytes}

theorem digit_step {c : UInt8} (hc : IsOctal c) (n : ℕ) :
    ofNat 64 n * 8#64 + (c.toBitVec.signExtend 64 - 48#64) =
      ofNat 64 (n * 8 + (c.toNat - 48)) := by
  have hms : c.toBitVec.msb = false := by
    rw [BitVec.msb_eq_decide]
    have := hc.2
    have : c.toBitVec.toNat < 128 := by
      change c.toNat < 128
      omega
    simp; omega
  have hsg : c.toBitVec.signExtend 64 = ofNat 64 c.toNat := by
    rw [BitVec.signExtend_eq_setWidth_of_msb_false hms, ← BitVec.ofNat_toNat]
    rfl
  rw [hsg, BitVec.ofNat_add, BitVec.ofNat_mul, BitVec.ofNat_sub_ofNat_of_le _ _ (by decide) hc.1]

theorem octAtoi_digits (hdg : ∀ c ∈ digits, IsOctal c) (len n : ℕ)
    (hlen : digits.length = len ∨ digits.length < len ∧ rest.head? = some 0) :
    octAtoi (digits ++ rest) len (ofNat 64 n) =
      ofNat 64 (digits.foldl (fun n c => n * 8 + (c.toNat - 48)) n) := by
  induction digits generalizing len n with
  | nil =>
    rcases hlen with rfl | ⟨hlt, hrs⟩
    · simp [octAtoi]
    · obtain ⟨k, rfl⟩ := Nat.exists_eq_succ_of_ne_zero (Nat.ne_of_gt hlt)
      obtain ⟨tail, rfl⟩ := head?_eq_some_iff.mp hrs
      simp [octAtoi]
  | cons c digits ih =>
    have hc := hdg c (by simp)
    have hne : c ≠ 0 := by
      rintro rfl
      exact absurd hc.1 (by decide)
    obtain ⟨k, rfl⟩ : ∃ k, len = k + 1 := by
      rcases hlen with rfl | ⟨hlt, -⟩
      · exact ⟨digits.length, rfl⟩
      · exact Nat.exists_eq_succ_of_ne_zero (Nat.ne_of_gt (Nat.lt_of_le_of_lt (Nat.zero_le _) hlt))
    rw [cons_append, octAtoi, if_neg hne, digit_step hc, foldl_cons]
    refine ih (fun d hd => hdg d (by simp [hd])) k _ ?_
    simpa using hlen

variable {n : ℕ}

theorem octalField_octAtoi {field : Bytes} (h : OctalField field n) :
    octAtoi (field ++ rest) 11 0#64 = ofNat 64 n := by
  obtain ⟨digits, hdg, hvl, hle, ⟨more, hmr⟩, hsh⟩ := h
  have hlen : digits.length = 11 ∨ digits.length < 11 ∧ (more ++ rest).head? = some 0 := by
    rcases lt_or_eq_of_le hle with hlt | heq
    · obtain ⟨tail, htl⟩ := hsh hlt
      rw [append_assoc, ← hmr, append_right_inj] at htl
      exact .inr ⟨hlt, by rw [← htl]; rfl⟩
    · exact .inl heq
  rw [← hmr, append_assoc, octAtoi_digits hdg 11 0 hlen]
  exact congrArg (ofNat 64) hvl

section

variable (r : Record) (tail : Bytes)

theorem Record.bytes_append : r.bytes ++ tail = r.block ++ (r.data ++ r.padding ++ tail) := by
  simp [Record.bytes]

theorem Record.drop_block : (r.bytes ++ tail).drop 512 = r.data ++ r.padding ++ tail := by
  rw [r.bytes_append, drop_left' r.length_block]

theorem Record.length_bytes : r.bytes.length = 512 + (r.data.length + r.padding.length) := by
  simp [Record.bytes, r.length_block]

theorem Record.type_append : type (r.bytes ++ tail) = type r.block := by
  have hlt : 156 < r.block.length := by simp [r.length_block]
  rw [r.bytes_append, type, type, getD_append _ _ _ _ hlt]

theorem Record.headerPath_append : headerPath (r.bytes ++ tail) = headerPath r.block := by
  have hle : 100 ≤ r.block.length := by simp [r.length_block]
  have hna : name (r.bytes ++ tail) = name r.block := by
    rw [r.bytes_append, name, name, take_append_of_le_length hle]
  rw [headerPath, headerPath, hna]

theorem Record.headD_append : (r.bytes ++ tail).headD 0 ≠ 0 := by
  have hnm := r.named
  rw [r.bytes_append]
  cases hbl : r.block with
  | nil => simp [hbl] at hnm
  | cons c block => simpa [hbl] using hnm

theorem Record.size_append (h : r.data.length < 2 ^ 64) :
    size (r.bytes ++ tail) = r.data.length := by
  have hle : 124 ≤ r.block.length := by simp [r.length_block]
  rw [size, r.bytes_append, drop_append_of_le_length hle, ← take_append_drop 12 (r.block.drop 124),
    append_assoc, octalField_octAtoi r.octal_size, BitVec.toNat_ofNat, Nat.mod_eq_of_lt h]

end

theorem blocks_padded {p : ℕ} (hpd : (n + p) % 512 = 0) (hp : p < 512) (h : n + p < 2 ^ 64) :
    blocks (n + 511) = n + p := by
  have hlt : n + 511 < 2 ^ 64 := by omega
  rw [blocks, Nat.mod_eq_of_lt hlt]
  omega

theorem visit_plain {tar tail : Bytes} {i : ℕ} {r : Record} (hpl : ¬ IsLong r.block)
    (htr : tar.drop i = r.bytes ++ tail) (hft : i + r.bytes.length < 2 ^ 64) :
    visit tar i = (⟨[i], some ⟨i, headerPath r.block⟩⟩, i + r.bytes.length) := by
  have hlen := r.length_bytes
  have hsz : size (tar.drop i) = r.data.length := by
    rw [htr, r.size_append tail (by omega)]
  have hty : type (tar.drop i) = type r.block := by rw [htr, r.type_append]
  have hsk : skip i (size (tar.drop i)) = i + r.bytes.length := by
    rw [skip, hsz, blocks_padded r.padded r.short (by omega), hlen,
      Nat.mod_eq_of_lt (by omega), Nat.add_assoc]
  have hnt := not_or.mp hpl
  rw [visit]
  simp only [hty, if_neg hnt.1, if_neg hnt.2, hsk]
  rw [htr, r.headerPath_append]

section

variable {tar tail : Bytes} {off : ℕ}

theorem length_zeroBlock : zeroBlock.length = 512 := length_replicate

theorem visits_zero (htr : tar.drop off = zeroBlock ++ tail) (rounds : ℕ) :
    visits tar tar.length (rounds + 1) off = some [⟨[off], none⟩] := by
  have hlt : off < tar.length := by
    have hlen := congrArg length htr
    rw [length_drop, length_append, length_zeroBlock] at hlen
    omega
  rw [visits, if_neg (not_le.mpr hlt), htr]
  rfl

variable {r : Record}

theorem visits_record (htr : tar.drop off = r.bytes ++ tail) (rounds : ℕ) :
    visits tar tar.length (rounds + 1) off =
      (visits tar tar.length rounds (visit tar off).2).map ((visit tar off).1 :: ·) := by
  have hlt : off < tar.length := by
    have hlen := congrArg length htr
    rw [length_drop, length_append, r.length_bytes] at hlen
    omega
  have hnm : (tar.drop off).headD 0 ≠ 0 := htr ▸ r.headD_append tail
  rw [visits, if_neg (not_le.mpr hlt), if_neg hnm]

theorem visits_head {tarsize rounds : ℕ} {vs : List Visit} (hoff : off < tarsize)
    (h : visits tar tarsize rounds off = some vs) :
    (vs.flatMap Visit.headers).head? = some off := by
  cases rounds with
  | zero => cases h
  | succ rounds =>
    rw [visits, if_neg (not_le.mpr hoff)] at h
    split at h
    · cases h
      rfl
    · obtain ⟨vs', -, rfl⟩ := Option.map_eq_some_iff.mp h
      have hvt : ((visit tar off).1.headers).head? = some off := by
        rw [visit]
        split_ifs <;> rfl
      rw [flatMap_cons, head?_append, hvt]
      rfl

theorem offsets_head (rs : List Record) : (offsets off rs).head? = some off := by
  cases rs <;> rfl

variable {rs : List Record}

theorem decodesFrom_nil (htr : tar.drop off = zeroBlock ++ tail) : DecodesFrom tar off [] :=
  ⟨1, [⟨[off], none⟩], visits_zero htr 0, rfl, .nil⟩

variable {m : Member} {ms : List Member}

theorem decodesFrom_plain (hbf : m.before = [])
    (htr : tar.drop off = m.entry.bytes ++ tail) (hft : tar.length < 2 ^ 64) :
    DecodesFrom tar off (m :: ms) ↔ DecodesFrom tar (off + m.entry.bytes.length) ms := by
  have hlen := congrArg length htr
  rw [length_drop, length_append] at hlen
  have hps := m.entry.length_bytes
  have hvt := visit_plain m.plain htr (by omega)
  have hrc : m.records = [m.entry] := by rw [Member.records, hbf, nil_append]
  have hpc : places off (m :: ms) = (off, m) :: places (off + m.entry.bytes.length) ms := by
    simp [places, hrc, hbf]
  constructor
  · rintro ⟨rounds, vs, hvs, hof, hen⟩
    cases rounds with
    | zero => cases hvs
    | succ rounds =>
      rw [visits_record htr, hvt] at hvs
      obtain ⟨vs', hvs', rfl⟩ := Option.map_eq_some_iff.mp hvs
      refine ⟨rounds, vs', hvs', ?_, ?_⟩
      · rw [flatMap_cons, flatMap_cons, hrc] at hof
        exact (cons.inj hof).2
      · rw [hpc] at hen
        exact (forall₂_cons.mp hen).2
  · rintro ⟨rounds, vs, hvs, hof, hen⟩
    refine ⟨rounds + 1, (visit tar off).1 :: vs, ?_, ?_, ?_⟩
    · rw [visits_record htr, hvt, hvs]
      rfl
    · rw [hvt, flatMap_cons, flatMap_cons, hrc, hof]
      rfl
    · rw [hvt, hpc]
      refine .cons ⟨rfl, ?_, ?_⟩ hen
      · simp [hbf]
      · simp [hbf]

theorem not_decodesFrom_longLink (hbf : m.before = r :: rs) (hty : type r.block = GNUTAR_LONG_LINK)
    (htr : tar.drop off = r.bytes ++ tail) (hft : tar.length < 2 ^ 64) :
    ¬ DecodesFrom tar off (m :: ms) := by
  rintro ⟨rounds, vs, hvs, hof, -⟩
  have hlen := congrArg length htr
  rw [length_drop, length_append, r.length_bytes] at hlen
  obtain ⟨text, -, hdt⟩ := r.terminated (.inr hty)
  have hps : 0 < r.data.length := by simp [hdt]
  have hvt : visit tar off = (⟨[off], none⟩, off + 512) := by
    rw [visit, htr, r.type_append]
    simp only [if_pos hty]
    rw [skip, show blocks (0 + 511) = 0 from rfl, Nat.add_zero, Nat.mod_eq_of_lt (by omega)]
  cases rounds with
  | zero => cases hvs
  | succ rounds =>
    rw [visits_record htr, hvt] at hvs
    obtain ⟨vs', hvs', rfl⟩ := Option.map_eq_some_iff.mp hvs
    have hhd : (vs'.flatMap Visit.headers).head? = some (off + 512) :=
      visits_head (by omega) hvs'
    have hrc : m.records = r :: (rs ++ [m.entry]) := by rw [Member.records, hbf]; rfl
    rw [flatMap_cons, flatMap_cons, hrc] at hof
    have htl : vs'.flatMap Visit.headers = offsets (off + r.bytes.length)
        (rs ++ [m.entry] ++ ms.flatMap Member.records) := (cons.inj hof).2
    rw [htl, offsets_head] at hhd
    have heq := Option.some.inj hhd
    rw [r.length_bytes] at heq
    omega

theorem not_decodesFrom_longName (hbf : m.before = r :: rs) (hty : type r.block = GNUTAR_LONG_NAME)
    (htr : tar.drop off = r.bytes ++ tail) (hft : tar.length < 2 ^ 64) :
    ¬ DecodesFrom tar off (m :: ms) := by
  rintro ⟨rounds, vs, hvs, -, hen⟩
  have hlen := congrArg length htr
  rw [length_drop, length_append, r.length_bytes] at hlen
  obtain ⟨text, htx, hdt⟩ := r.terminated (.inl hty)
  have hpt : (tar.drop (off + 512)).take (size (tar.drop off)) = r.data := by
    rw [htr, r.size_append tail (by omega), ← drop_drop, htr, r.drop_block,
      append_assoc, take_left]
  cases rounds with
  | zero => cases hvs
  | succ rounds =>
    rw [visits_record htr] at hvs
    obtain ⟨vs', -, rfl⟩ := Option.map_eq_some_iff.mp hvs
    have het : ∃ i, (visit tar off).1.entry = some ⟨i, r.data⟩ := by
      have hln : type (tar.drop off) = GNUTAR_LONG_NAME := by rw [htr, r.type_append, hty]
      have hlk : type (tar.drop off) ≠ GNUTAR_LONG_LINK := by
        rw [hln]
        decide
      rw [visit]
      simp only [if_neg hlk, if_pos hln, hpt]
      exact ⟨_, rfl⟩
    obtain ⟨i, het⟩ := het
    rw [filterMap_cons_some het, places] at hen
    have heq : r.data = r.text :=
      (forall₂_cons.mp hen).1.path r (by simp [hbf]) hty
    have hme : (0 : UInt8) ∈ r.text := by
      rw [← heq, hdt]
      simp
    simpa using mem_takeWhile_imp hme

theorem decodesFrom_iff (htr : tar.drop off = (ms.flatMap Member.records).flatMap Record.bytes ++
      (zeroBlock ++ tail)) (hft : tar.length < 2 ^ 64) :
    DecodesFrom tar off ms ↔ ∀ m ∈ ms, m.before = [] := by
  induction ms generalizing off with
  | nil => exact ⟨fun _ => by simp, fun _ => decodesFrom_nil htr⟩
  | cons m ms ih =>
    rw [flatMap_cons, flatMap_append, append_assoc] at htr
    cases hbf : m.before with
    | nil =>
      have het : tar.drop off = m.entry.bytes ++ ((ms.flatMap Member.records).flatMap
          Record.bytes ++ (zeroBlock ++ tail)) := by
        rw [htr, Member.records, hbf]
        simp
      have hnx : tar.drop (off + m.entry.bytes.length) = (ms.flatMap Member.records).flatMap
          Record.bytes ++ (zeroBlock ++ tail) := by
        rw [← drop_drop, het, drop_left]
      rw [decodesFrom_plain hbf het hft, ih hnx]
      simp [hbf]
    | cons r rs =>
      have hrr : ∃ tail, tar.drop off = r.bytes ++ tail := by
        rw [htr, Member.records, hbf]
        simp
      obtain ⟨tail', hrr⟩ := hrr
      have hnt : ¬ DecodesFrom tar off (m :: ms) := by
        rcases m.long r (by simp [hbf]) with hna | hlk
        · exact not_decodesFrom_longName hbf hna hrr hft
        · exact not_decodesFrom_longLink hbf hlk hrr hft
      refine ⟨fun h => absurd h hnt, fun h => ?_⟩
      have hnl := h m (by simp)
      rw [hbf] at hnl
      cases hnl

end

theorem Archive.length_tar (a : Archive) : a.tar.length < 2 ^ 64 := by
  rw [Archive.tar, length_append, length_append, length_zeroBlock, ← add_assoc]
  exact a.fits

/-- The loop stops at every true header and takes the long names exactly in the archives that have
no long records. -/
theorem initrd_decodes_iff (a : Archive) : DecodesExactly a ↔ ∀ m ∈ a.members, m.before = [] :=
  decodesFrom_iff (drop_zero) a.length_tar

def header (name digits : Bytes) (type : UInt8) (linkname : Bytes) : Bytes :=
  name ++ replicate (124 - name.length) 0 ++ digits ++ replicate 21 0 ++
    type :: (linkname ++ replicate (355 - linkname.length) 0)

/-- `././@LongLink`, with a path of 101 bytes and its terminator. -/
def longNameRecord : Record where
  block := header [46, 47, 46, 47, 64, 76, 111, 110, 103, 76, 105, 110, 107]
    [48, 48, 48, 48, 48, 48, 48, 48, 49, 52, 54] GNUTAR_LONG_NAME []
  data := replicate 101 97 ++ [0]
  padding := replicate 410 0
  length_block := by decide +kernel
  named := by decide +kernel
  octal_size := ⟨[48, 48, 48, 48, 48, 48, 48, 48, 49, 52, 54], by decide +kernel, by decide, by decide,
    by decide +kernel, by decide⟩
  padded := by decide +kernel
  short := by decide +kernel
  terminated _ := ⟨replicate 101 97, by decide +kernel, rfl⟩

def emptyFileRecord : Record where
  block := header (replicate 100 97) [48, 48, 48, 48, 48, 48, 48, 48, 48, 48, 48] 48 []
  data := []
  padding := []
  length_block := by decide +kernel
  named := by decide +kernel
  octal_size := ⟨[48, 48, 48, 48, 48, 48, 48, 48, 48, 48, 48], by decide +kernel, by decide, by decide,
    by decide +kernel, by decide⟩
  padded := by decide
  short := by decide
  terminated h := absurd h (by decide +kernel)

def longNameArchive : Archive where
  members := [⟨[longNameRecord], emptyFileRecord, by decide +kernel, by decide, by decide +kernel⟩]
  rest := zeroBlock
  fits := by decide +kernel

/-- The name of the entry ends with the terminator. -/
theorem longName_not_decoded : visits longNameArchive.tar longNameArchive.tar.length 3 0 =
      some [⟨[0, 1024], some ⟨1024, replicate 101 97 ++ [0]⟩⟩, ⟨[1536], none⟩] ∧
    ¬ DecodesExactly longNameArchive := by
  refine ⟨by decide +kernel, fun h => ?_⟩
  have hno := (decodesFrom_iff drop_zero longNameArchive.length_tar).mp h
    ⟨[longNameRecord], emptyFileRecord, by decide +kernel, by decide, by decide +kernel⟩
    (mem_singleton.mpr rfl)
  cases hno

end Initrd
