import Mathlib.Data.Fintype.Defs
import SalernosKernel.Config
import SalernosKernel.RingBuffer

/-! # Reads and writes of an NVMe drive

`nvme_read` and `nvme_write` of `opt/nvme/nvme.c`, with page commands that the drive executes as
asked. Neither a buffer nor a request wraps around. -/
namespace NvmeTransfer

open Function
open RingBuffer (kmemcpy kmemcpy_eq)

theorem page_pos : 0 < archPageSize := Nat.succ_pos 4095

def bytes (dev : ℕ → UInt8) (a n : ℕ) : List UInt8 := (List.range' a n).map dev

def page (dev : ℕ → UInt8) (pageno : ℕ) : List UInt8 :=
  bytes dev (pageno * archPageSize) archPageSize

section Read

variable (dev : ℕ → UInt8)

def readPages : ℕ → (ℕ → UInt8) → ℕ → ℕ → ℕ → UInt8
  | 0, mem, _, _ => mem
  | n + 1, mem, buf, pageno =>
    readPages n (kmemcpy (kmemcpy mem buf [0]) buf (page dev pageno)) (buf + archPageSize)
      (pageno + 1)

def readLoop : ℕ → (ℕ → UInt8) → ℕ → ℕ → ℕ → ℕ → ℕ → ℕ × (ℕ → UInt8)
  | 0, mem, _, _, _, _, bytesRead => (bytesRead, mem)
  | n + 1, mem, buf, pageno, rem, remBuflen, bytesRead =>
    let readSize := min (archPageSize - rem) remBuflen
    readLoop n (kmemcpy mem buf (((page dev pageno).drop rem).take readSize)) (buf + readSize)
      (pageno + 1) 0 (remBuflen - readSize) (bytesRead + readSize)

def readWithin (mem : ℕ → UInt8) (buf buflen off bytesRead : ℕ) : ℕ × (ℕ → UInt8) :=
  let basePage := off / archPageSize
  let rem := off % archPageSize
  if rem = 0 ∧ buflen % archPageSize = 0 ∧ buf % archPageSize = 0 then
    (buflen, readPages dev (buflen / archPageSize) mem buf basePage)
  else if rem = 0 ∧ 2 * archPageSize ≤ buflen then
    let roundedBuf := pagesFor buf * archPageSize
    let roundedLast := (buf + buflen) / archPageSize * archPageSize
    let roundedPages := (roundedLast - roundedBuf) / archPageSize
    let mem := readPages dev roundedPages mem roundedBuf
      (basePage + if buf ≠ roundedBuf then 1 else 0)
    let mem := if buf ≠ roundedBuf then
      kmemcpy mem buf ((page dev basePage).take (roundedBuf - buf)) else mem
    (buflen, kmemcpy mem roundedLast
      ((page dev (basePage + roundedPages)).take (buf + buflen - roundedLast)))
  else readLoop dev (pagesFor buflen) mem buf basePage rem buflen
    bytesRead

def nvmeRead (size : ℕ) (mem : ℕ → UInt8) (buf buflen off bytesRead : ℕ) : ℕ × (ℕ → UInt8) :=
  if size ≤ off then (0, mem)
  else
    let buflen := if size ≤ off + buflen then size - off else buflen
    if buflen = 0 then (0, mem) else readWithin dev mem buf buflen off bytesRead

end Read

def Served (buf n off : ℕ) : Prop :=
  n = 0 ∨ if off % archPageSize = 0 then n < 2 * archPageSize ∨ buf % archPageSize = 0
    else off % archPageSize + n ≤ pagesFor n * archPageSize

section Exact

variable {dev mem : ℕ → UInt8} {buf n off a k rem pageno count : ℕ}

theorem kmemcpy_bytes (dev mem : ℕ → UInt8) (buf a n i : ℕ) : kmemcpy mem buf (bytes dev a n) i =
      if buf ≤ i ∧ i < buf + n then dev (a + (i - buf)) else mem i := by
  rw [kmemcpy_eq, bytes, List.length_map, List.length_range']
  split_ifs with h
  · rw [List.getD_eq_getElem _ _ (by simp; omega), List.getElem_map, List.getElem_range', one_mul]
  · rfl

theorem kmemcpy_bytes_add (dev mem : ℕ → UInt8) (buf a n k : ℕ) :
    kmemcpy (kmemcpy mem buf (bytes dev a n)) (buf + n) (bytes dev (a + n) k) =
      kmemcpy mem buf (bytes dev a (n + k)) := by
  funext i
  simp only [kmemcpy_bytes]
  split_ifs <;> first | omega | (congr 1; omega) | rfl

theorem take_drop_page (h : rem + n ≤ archPageSize) :
    ((page dev pageno).drop rem).take n = bytes dev (pageno * archPageSize + rem) n := by
  rw [page, bytes, ← List.map_drop, ← List.map_take, List.drop_range',
    List.take_range'_of_length_ge (by omega), mul_one]
  rfl

theorem readPages_eq (n : ℕ) (mem : ℕ → UInt8) (buf pageno : ℕ) : readPages dev n mem buf pageno =
    kmemcpy mem buf (bytes dev (pageno * archPageSize) (n * archPageSize)) := by
  induction n generalizing mem buf pageno with
  | zero =>
    funext i
    simp [readPages, kmemcpy_bytes]
  | succ n ih =>
    have hft : kmemcpy (kmemcpy mem buf [0]) buf (page dev pageno) =
        kmemcpy mem buf (page dev pageno) := by
      funext i
      rw [page, kmemcpy_bytes, kmemcpy_bytes, kmemcpy_eq]
      split_ifs <;> first | rfl | simp_all [archPageSize]; omega
    rw [readPages, ih, hft, page, Nat.succ_mul, Nat.succ_mul, kmemcpy_bytes_add, add_comm]

theorem readLoop_eq (hrm : rem < archPageSize) (k : ℕ) :
    readLoop dev n mem buf pageno rem k count =
      (count + min k (n * archPageSize - rem), kmemcpy mem buf
        (bytes dev (pageno * archPageSize + rem) (min k (n * archPageSize - rem)))) := by
  induction n generalizing mem buf pageno rem k count with
  | zero =>
    simp only [readLoop, Nat.zero_mul, Nat.zero_sub, Nat.min_zero]
    congr 1
    funext i
    simp [kmemcpy_bytes]
  | succ n ih =>
    have hlen : min (archPageSize - rem) k + min (k - min (archPageSize - rem) k)
        (n * archPageSize - 0) = min k ((n + 1) * archPageSize - rem) := by
      unfold archPageSize at *
      omega
    have hrs : ∀ m, m ≤ k - min (archPageSize - rem) k →
        bytes dev ((pageno + 1) * archPageSize + 0) m =
          bytes dev (pageno * archPageSize + rem + min (archPageSize - rem) k) m := by
      intro m hm
      rcases Nat.eq_zero_or_pos m with rfl | hps
      · simp [bytes]
      · rw [show (pageno + 1) * archPageSize + 0 =
          pageno * archPageSize + rem + min (archPageSize - rem) k by rw [Nat.succ_mul]; omega]
    rw [readLoop, ih page_pos, take_drop_page (by omega), hrs _ (Nat.min_le_left ..),
      kmemcpy_bytes_add, Nat.add_assoc, hlen]

theorem take_page (h : n ≤ archPageSize) :
    (page dev pageno).take n = bytes dev (pageno * archPageSize) n := by
  simpa using @take_drop_page dev n 0 pageno (by omega)

theorem readWithin_rounded (hof : off % archPageSize = 0) (hlen : 2 * archPageSize ≤ n)
    (hsw : ¬ (n % archPageSize = 0 ∧ buf % archPageSize = 0)) :
    (∀ dev mem, readWithin dev mem buf n off 0 = (n, kmemcpy mem buf (bytes dev off n))) ↔
      buf % archPageSize = 0 := by
  obtain ⟨b, hb⟩ : ∃ b, pagesFor buf * archPageSize = b := ⟨_, rfl⟩
  obtain ⟨l, hl⟩ : ∃ l, (buf + n) / archPageSize * archPageSize = l := ⟨_, rfl⟩
  have hhd : b - buf ≤ archPageSize := by
    unfold pagesFor archPageSize at *
    omega
  have htl : buf + n - l ≤ archPageSize := by
    unfold archPageSize at *
    omega
  simp only [readWithin, hof, true_and, if_neg hsw, if_pos hlen, readPages_eq, Prod.mk.injEq, hb,
    hl, take_page hhd, take_page htl]
  constructor
  · intro h
    by_contra hbf
    -- At the first page border in the buffer stands the next page, and not the rest of this one.
    have hby := congrFun (h (fun i => UInt8.ofNat (i / archPageSize)) fun _ => 0) b
    unfold pagesFor archPageSize at *
    rw [if_pos (by omega), if_pos (by omega)] at hby
    simp only [kmemcpy_bytes] at hby
    rw [if_neg (by omega), if_neg (by omega), if_pos (by omega), if_pos (by omega)] at hby
    have hmd := congrArg UInt8.toNat hby
    simp only [UInt8.toNat_ofNat'] at hmd
    omega
  · intro hbf dev mem
    obtain rfl : b = buf := by
      unfold pagesFor archPageSize at *
      omega
    obtain ⟨q, hq⟩ : ∃ q, (l - b) / archPageSize = q := ⟨_, rfl⟩
    have hof' : off / archPageSize * archPageSize = off := Nat.div_mul_cancel
      (Nat.dvd_of_mod_eq_zero hof)
    obtain rfl : l = b + q * archPageSize := by
      unfold archPageSize at *
      omega
    have hqn : q * archPageSize ≤ n :=
      Nat.add_le_add_iff_left.mp (hl ▸ Nat.div_mul_le_self (b + n) archPageSize)
    rw [if_neg (not_not.mpr rfl), if_neg (not_not.mpr rfl), hq, Nat.add_zero, Nat.add_mul, hof',
      kmemcpy_bytes_add, Nat.add_sub_add_left, Nat.add_sub_cancel' hqn]

theorem readWithin_loop (hps : n ≠ 0) (h : off % archPageSize = 0 → n < 2 * archPageSize ∧
      ¬ (n % archPageSize = 0 ∧ buf % archPageSize = 0)) :
    (∀ dev mem, readWithin dev mem buf n off 0 = (n, kmemcpy mem buf (bytes dev off n))) ↔
      off % archPageSize + n ≤ pagesFor n * archPageSize := by
  have hrm := Nat.mod_lt off page_pos
  have hfs : ¬ (off % archPageSize = 0 ∧ n % archPageSize = 0 ∧ buf % archPageSize = 0) :=
    fun hfs => (h hfs.1).2 hfs.2
  have hln : ¬ (off % archPageSize = 0 ∧ 2 * archPageSize ≤ n) :=
    fun hln => (h hln.1).1.not_ge hln.2
  simp only [readWithin, if_neg hfs, if_neg hln, readLoop_eq hrm, Nat.zero_add, Nat.div_add_mod']
  constructor
  · intro hrd
    have := congrArg Prod.fst (hrd (fun _ => 0) fun _ => 0)
    omega
  · intro hle dev mem
    rw [Nat.min_eq_left (by omega)]

def Reads (size buf buflen off : ℕ) : Prop :=
  ∀ dev mem, nvmeRead dev size mem buf buflen off 0 =
    (min buflen (size - off), kmemcpy mem buf (bytes dev off (min buflen (size - off))))

/-- A read, cut at the end of the drive, is exact if and only if it is one of `Served`. -/
theorem nvme_read_exact_iff (size buf buflen off : ℕ) :
    Reads size buf buflen off ↔ Served buf (min buflen (size - off)) off := by
  obtain ⟨n, hn⟩ : ∃ n, min buflen (size - off) = n := ⟨_, rfl⟩
  have hrd : ∀ dev mem, nvmeRead dev size mem buf buflen off 0 =
      if n = 0 then (0, mem) else readWithin dev mem buf n off 0 := by
    intro dev mem
    rw [nvmeRead]
    by_cases hin : size ≤ off
    · rw [if_pos hin, if_pos (by omega)]
    · rw [if_neg hin, show (if size ≤ off + buflen then size - off else buflen) = n by
        split_ifs <;> omega]
  simp only [Reads, hrd, hn, Served]
  by_cases hz : n = 0
  · subst hz
    refine iff_of_true (fun dev mem => ?_) (.inl rfl)
    rw [if_pos rfl, show kmemcpy mem buf (bytes dev off 0) = mem from
      funext fun i => by simp [kmemcpy_bytes]]
  · simp only [if_neg hz, or_iff_right hz]
    split_ifs with hof
    · by_cases hfs : n % archPageSize = 0 ∧ buf % archPageSize = 0
      · refine iff_of_true (fun dev mem => ?_) (.inr hfs.2)
        rw [readWithin, if_pos ⟨hof, hfs⟩, readPages_eq, Nat.div_mul_cancel
          (Nat.dvd_of_mod_eq_zero hof), Nat.div_mul_cancel (Nat.dvd_of_mod_eq_zero hfs.1)]
      · by_cases hlen : 2 * archPageSize ≤ n
        · rw [readWithin_rounded hof hlen hfs]
          omega
        · refine iff_of_true ((readWithin_loop hz fun _ => ⟨by omega, hfs⟩).mpr ?_) (.inl (by omega))
          unfold pagesFor archPageSize at *
          omega
    · exact readWithin_loop hz fun h => absurd h hof

/-- A page's length from the middle of a page, and two pages into a buffer that begins within one. -/
theorem nvme_read_inexact : (nvmeRead (fun _ => 7) 8192 (fun _ => 0) 0 4096 100 0).1 = 3996 ∧
    (nvmeRead (fun i => if i < 4096 then 7 else 9) 8192 (fun _ => 0) 1 8192 0 0).2 4096 = 9 := by
  decide +kernel

end Exact

section Write

structure Request where
  buf : ℕ
  data : ℕ → UInt8
  buflen : ℕ
  off : ℕ

variable (size : ℕ)

def Request.len (r : Request) : ℕ :=
  if size ≤ r.off then 0 else if size ≤ r.off + r.buflen then size - r.off else r.buflen

abbrev Request.Aligned (r : Request) : Prop :=
  r.off % archPageSize = 0 ∧ r.len size % archPageSize = 0 ∧ r.buf % archPageSize = 0

def Request.rounds (r : Request) : ℕ :=
  if r.Aligned size then r.len size / archPageSize
  else pagesFor (r.len size)

structure Call where
  i : ℕ := 0
  bytesWritten : ℕ := 0
  tmp : Option (ℕ → UInt8) := none

def Request.pageno (r : Request) (i : ℕ) : ℕ := r.off / archPageSize + i

def Request.rem (r : Request) (i : ℕ) : ℕ := if i = 0 then r.off % archPageSize else 0

def storePage (dev : ℕ → UInt8) (pageno : ℕ) (tmp : ℕ → UInt8) (a : ℕ) : UInt8 :=
  if a / archPageSize = pageno then tmp (a % archPageSize) else dev a

structure State (T : Type*) where
  dev : ℕ → UInt8
  call : T → Call := fun _ => {}

inductive Command (T : Type*) where
  | read (t : T)
  | write (t : T)

variable {T : Type*} (req : T → Request)

abbrev Returned (s : State T) (t : T) : Prop := (req t).rounds size ≤ (s.call t).i

def next [DecidableEq T] (s : State T) : Command T → Option (State T)
  | .read t =>
    let c := s.call t
    if Returned size req s t ∨ (req t).Aligned size ∨ c.tmp.isSome then none
    else some { s with call := update s.call t { c with
      tmp := some fun j => s.dev ((req t).pageno c.i * archPageSize + j) } }
  | .write t =>
    let r := req t
    let c := s.call t
    if Returned size req s t then none
    else if r.Aligned size then
      some ⟨storePage s.dev (r.pageno c.i) fun j => r.data (c.i * archPageSize + j),
        update s.call t
          ⟨c.i + 1, if c.i + 1 = r.rounds size then r.len size else c.bytesWritten, none⟩⟩
    else c.tmp.map fun tmp =>
      let readSize := min (archPageSize - r.rem c.i) (r.len size - c.bytesWritten)
      ⟨storePage s.dev (r.pageno c.i) (kmemcpy tmp (r.rem c.i) (bytes r.data c.bytesWritten readSize)),
        update s.call t ⟨c.i + 1, c.bytesWritten + readSize, none⟩⟩

/-- No page is written while another call is between its read and its write of it. -/
def Undisturbed (s : State T) : Command T → Prop
  | .read _ => True
  | .write t => ∀ u, u ≠ t → (s.call u).tmp.isSome →
      (req u).pageno (s.call u).i ≠ (req t).pageno (s.call t).i

instance [Fintype T] [DecidableEq T] (s : State T) : DecidablePred (Undisturbed req s) := fun e =>
  match e with
  | .read _ => inferInstanceAs (Decidable True)
  | .write t => inferInstanceAs (Decidable (∀ u, u ≠ t → (s.call u).tmp.isSome →
      (req u).pageno (s.call u).i ≠ (req t).pageno (s.call t).i))

def progress (r : Request) (i : ℕ) : ℕ := min (r.len size) (i * archPageSize - r.off % archPageSize)

def Covers (s : State T) (t : T) (a : ℕ) : Prop :=
  (req t).off ≤ a ∧ a < (req t).off + progress size (req t) (s.call t).i

structure Inv (dev : ℕ → UInt8) (s : State T) : Prop where
  count : ∀ t, (s.call t).bytesWritten =
    if (req t).Aligned size ∧ ¬ Returned size req s t then 0
    else progress size (req t) (s.call t).i
  tmp : ∀ t p, (s.call t).tmp = some p → ∀ j < archPageSize,
    p j = s.dev ((req t).pageno (s.call t).i * archPageSize + j)
  data : ∀ t a, Covers size req s t a → s.dev a = (req t).data (a - (req t).off)
  rest : ∀ a, (∀ t, ¬ Covers size req s t a) → s.dev a = dev a

variable {size req} {s s' : State T} {t : T} {e : Command T} {dev : ℕ → UInt8} [DecidableEq T]

theorem progress_add (r : Request) (i : ℕ) : progress size r i +
    min (archPageSize - r.rem i) (r.len size - progress size r i) = progress size r (i + 1) := by
  unfold progress Request.rem archPageSize
  split_ifs <;> omega

theorem mem_round (r : Request) (i a : ℕ) :
    r.off + progress size r i ≤ a ∧ a < r.off + progress size r (i + 1) ↔
      a / archPageSize = r.pageno i ∧ r.rem i ≤ a % archPageSize ∧ a % archPageSize <
        r.rem i + min (archPageSize - r.rem i) (r.len size - progress size r i) := by
  unfold progress Request.rem Request.pageno archPageSize
  split_ifs <;> omega

theorem sub_of_mem_round {r : Request} {i a : ℕ} (h : r.off + progress size r i ≤ a ∧
    a < r.off + progress size r (i + 1)) :
    progress size r i + (a % archPageSize - r.rem i) = a - r.off := by
  unfold progress Request.rem archPageSize at *
  split_ifs <;> omega

theorem write_spec (h : Inv size req dev s) (hn : next size req s (.write t) = some s') :
    s'.call = update s.call t ⟨(s.call t).i + 1,
      if (req t).Aligned size ∧ ¬ (req t).rounds size ≤ (s.call t).i + 1 then 0
        else progress size (req t) ((s.call t).i + 1), none⟩ ∧
    ∀ a, s'.dev a = if (req t).off + progress size (req t) (s.call t).i ≤ a ∧
        a < (req t).off + progress size (req t) ((s.call t).i + 1) then
      (req t).data (a - (req t).off) else s.dev a := by
  have hct := h.count t
  simp only [next] at hn
  by_cases hret : Returned size req s t
  · rw [if_pos hret] at hn
    cases hn
  rw [if_neg hret] at hn
  by_cases hal : (req t).Aligned size
  · rw [if_pos hal] at hn
    have hrnd : (req t).rounds size = (req t).len size / archPageSize := if_pos hal
    cases hn
    obtain ⟨hof, hmd, -⟩ := id hal
    have hlen : progress size (req t) (s.call t).i = (s.call t).i * archPageSize ∧
        progress size (req t) ((s.call t).i + 1) = ((s.call t).i + 1) * archPageSize := by
      unfold progress archPageSize at *
      omega
    have hrm : (req t).rem (s.call t).i = 0 := by simp [Request.rem, hof]
    constructor
    · simp only [hlen, hrnd, hct]
      unfold archPageSize at *
      congr 2
      split_ifs <;> omega
    · intro a
      have hrn := @mem_round size (req t) (s.call t).i a
      by_cases hpg : a / archPageSize = (req t).pageno (s.call t).i
      · have hin := hrn.mpr ⟨hpg, by unfold archPageSize at *; omega⟩
        rw [if_pos hin, ← sub_of_mem_round hin, hlen.1, hrm]
        exact if_pos hpg
      · rw [if_neg fun h => hpg (hrn.mp h).1]
        exact if_neg hpg
  · have hsw : ∀ P, ¬ ((req t).Aligned size ∧ P) := fun P h => hal h.1
    rw [if_neg hal] at hn
    rw [if_neg (hsw _)] at hct
    obtain ⟨tmp, htm, rfl⟩ := Option.map_eq_some_iff.mp hn
    have hpa := h.tmp t tmp htm
    constructor
    · simp only [if_neg (hsw _), hct, progress_add]
    · intro a
      have hrn := @mem_round size (req t) (s.call t).i a
      simp only [storePage, kmemcpy_bytes, hct]
      by_cases hpg : a / archPageSize = (req t).pageno (s.call t).i
      · rw [if_pos hpg]
        by_cases hin : (req t).off + progress size (req t) (s.call t).i ≤ a ∧
            a < (req t).off + progress size (req t) ((s.call t).i + 1)
        · rw [if_pos (hrn.mp hin).2, if_pos hin, sub_of_mem_round hin]
        · rw [if_neg fun h => hin (hrn.mpr ⟨hpg, h⟩), if_neg hin,
            hpa _ (Nat.mod_lt a page_pos), ← hpg, Nat.div_add_mod']
      · rw [if_neg hpg, if_neg fun h => hpg (hrn.mp h).1]

theorem Inv.read (h : Inv size req dev s) (hn : next size req s (.read t) = some s') :
    Inv size req dev s' := by
  obtain ⟨hdv, hcl⟩ : s'.dev = s.dev ∧ s'.call = update s.call t { s.call t with
      tmp := some fun j => s.dev ((req t).pageno (s.call t).i * archPageSize + j) } := by
    simp only [next] at hn
    split at hn
    · cases hn
    · cases hn
      exact ⟨rfl, rfl⟩
  have hsm : ∀ u, (s'.call u).i = (s.call u).i ∧
      (s'.call u).bytesWritten = (s.call u).bytesWritten := by
    intro u
    rw [hcl]
    by_cases hut : u = t
    · rw [hut, update_self]
      exact ⟨rfl, rfl⟩
    · rw [update_of_ne hut]
      exact ⟨rfl, rfl⟩
  constructor
  · simpa only [Returned, hsm] using h.count
  · intro u p hp j hj
    rw [hdv, (hsm u).1]
    by_cases hut : u = t
    · rw [hcl, hut, update_self] at hp
      rw [hut, ← Option.some.inj hp]
    · rw [hcl, update_of_ne hut] at hp
      exact h.tmp u p hp j hj
  · simpa only [Covers, hsm, hdv] using h.data
  · simpa only [Covers, hsm, hdv] using h.rest

def Range (size : ℕ) (r : Request) (a : ℕ) : Prop := r.off ≤ a ∧ a < r.off + r.len size

theorem Inv.write (h : Inv size req dev s) (hok : Undisturbed req s (.write t))
    (hds : ∀ t u, t ≠ u → ∀ a, ¬ (Range size (req t) a ∧ Range size (req u) a))
    (hn : next size req s (.write t) = some s') : Inv size req dev s' := by
  obtain ⟨hcl, hdv⟩ := write_spec h hn
  have hot : ∀ u, u ≠ t → s'.call u = s.call u := fun u hu => hcl ▸ update_of_ne hu ..
  have hsl := congrFun hcl t
  rw [update_self] at hsl
  have hmn := Nat.le.intro (@progress_add size (req t) (s.call t).i)
  have hcv : ∀ u a, Covers size req s u a → Covers size req s' u a := by
    intro u a hu
    by_cases hut : u = t
    · subst hut
      simp only [Covers, hsl] at hu ⊢
      omega
    · rwa [Covers, hot u hut]
  constructor
  · intro u
    by_cases hut : u = t
    · subst hut
      simp only [Returned, hsl]
    · simp only [Returned, hot u hut]
      exact h.count u
  · intro u p hp j hj
    have hut : u ≠ t := by
      rintro rfl
      rw [hsl] at hp
      cases hp
    rw [hot u hut] at hp ⊢
    rw [hdv, if_neg, h.tmp u p hp j hj]
    intro hin
    apply hok u hut (by rw [hp]; rfl)
    rw [← ((mem_round (req t) _ _).mp hin).1, Nat.mul_comm, Nat.mul_add_div page_pos,
      Nat.div_eq_of_lt hj, Nat.add_zero]
  · intro u a hu
    rw [hdv]
    by_cases hut : u = t
    · subst hut
      split_ifs with hin
      · rfl
      · apply h.data u a
        simp only [Covers, hsl] at hu ⊢
        omega
    · rw [Covers, hot u hut] at hu
      rw [if_neg, h.data u a hu]
      intro hin
      refine hds u t hut a ⟨⟨hu.1, hu.2.trans_le ?_⟩, (Nat.le_add_right ..).trans hin.1,
        hin.2.trans_le ?_⟩ <;>
      exact Nat.add_le_add_left (Nat.min_le_left ..) _
  · intro a ha
    rw [hdv, if_neg, h.rest a fun u hu => ha u (hcv u a hu)]
    intro hin
    apply ha t
    simp only [Covers, hsl]
    omega

theorem reached_inv (hds : ∀ t u, t ≠ u → ∀ a, ¬ (Range size (req t) a ∧ Range size (req u) a))
    (hrun : Runs.Reaches (next size req) (Undisturbed req) { dev := dev } s) :
    Inv size req dev s := by
  apply hrun.invariant (Inv size req dev)
  · have hst : ∀ t, progress size (req t) 0 = 0 := fun t => by simp [progress]
    refine ⟨fun t => ?_, (fun _ _ hp => by cases hp), fun t a h => ?_, fun _ _ => rfl⟩
    · rw [hst, ite_self]
    · rw [Covers, hst] at h
      omega
  · intro s e s' hs hok hn
    cases e with
    | read t => exact hs.read hn
    | write t => exact hs.write hok hds hn

/-- Once all calls have returned, the bytes that they report hold what was to be written, and all
others what they held before. -/
theorem writes_kept {size : ℕ} {req : T → Request} {dev : ℕ → UInt8} {s : State T}
    (hdisj : ∀ t u, t ≠ u → ∀ a, ¬ (Range size (req t) a ∧ Range size (req u) a))
    (hrun : Runs.Reaches (next size req) (Undisturbed req) { dev := dev } s)
    (hret : ∀ t, Returned size req s t) :
    (∀ t k, k < (s.call t).bytesWritten → s.dev ((req t).off + k) = (req t).data k) ∧
      ∀ a, (∀ t k, k < (s.call t).bytesWritten → a ≠ (req t).off + k) → s.dev a = dev a := by
  have hiv := reached_inv hdisj hrun
  have hct : ∀ t, (s.call t).bytesWritten = progress size (req t) (s.call t).i := by
    intro t
    rw [hiv.count, if_neg fun h => h.2 (hret t)]
  constructor
  · intro t k hk
    rw [hiv.data t _ ⟨Nat.le_add_right .., Nat.add_lt_add_left (hct t ▸ hk) _⟩,
      Nat.add_sub_cancel_left]
  · intro a ha
    apply hiv.rest a
    intro t ht
    apply ha t (a - (req t).off)
    · rw [hct]
      exact Nat.sub_lt_left_of_lt_add ht.1 ht.2
    · exact (Nat.add_sub_cancel' ht.1).symm

def oneByte (t : Bool) : Request := ⟨0, fun _ => 7, 1, t.toNat⟩

theorem writes_kept_twice : ∃ s : State Bool, (∀ t, Returned 4096 oneByte s t) ∧
    (∀ t k, k < (s.call t).bytesWritten → s.dev ((oneByte t).off + k) = 7) ∧
      ∀ a, (∀ t k, k < (s.call t).bytesWritten → a ≠ (oneByte t).off + k) → s.dev a = 0 := by
  have hrun : (Runs.run (next 4096 oneByte) (Undisturbed oneByte) { dev := fun _ => 0 }
      [.read false, .write false, .read true, .write true]).map
      (fun s => decide (∀ t, Returned 4096 oneByte s t)) = some true := by decide +kernel
  obtain ⟨s, hs, hed⟩ := Option.map_eq_some_iff.mp hrun
  have hret := of_decide_eq_true hed
  refine ⟨s, hret, writes_kept (fun t u htu a h => ?_) (Runs.run_reaches hs) hret⟩
  have hlen : ∀ t, (oneByte t).len 4096 = 1 := by decide
  have hof : ∀ t u, (oneByte t).off = (oneByte u).off → t = u := by decide
  simp only [Range, hlen] at h
  exact htu (hof t u (by omega))

/-- Both read the page first: the second write puts back what the first one has replaced. -/
theorem write_lost : ∃ s : State Bool,
    Runs.Reaches (next 4096 oneByte) (fun _ _ => True) { dev := fun _ => 0 } s ∧
    (∀ t, Returned 4096 oneByte s t) ∧ (s.call false).bytesWritten = 1 ∧ s.dev 0 = 0 := by
  have hrun : (Runs.run (next 4096 oneByte) (fun _ _ => True) { dev := fun _ => 0 }
      [.read false, .read true, .write false, .write true]).map
      (fun s => (decide (∀ t, Returned 4096 oneByte s t), (s.call false).bytesWritten, s.dev 0)) =
        some (true, 1, 0) := by decide +kernel
  obtain ⟨s, hs, hed⟩ := Option.map_eq_some_iff.mp hrun
  obtain ⟨hret, hrs⟩ := Prod.mk.inj hed
  exact ⟨s, Runs.run_reaches hs, of_decide_eq_true hret, Prod.mk.inj hrs⟩

def roundsLeft (size : ℕ) (r : Request) (c : Call) : ℕ :=
  2 * (r.rounds size - c.i) + c.tmp.isNone.toNat

theorem next_roundsLeft {r : Request} {s s' : State Unit} {e : Command Unit}
    (hn : next size (fun _ => r) s e = some s') :
    roundsLeft size r (s'.call ()) < roundsLeft size r (s.call ()) := by
  cases e with
  | read t =>
    simp only [next] at hn
    split_ifs at hn with hno
    cases hn
    rw [not_or, not_or, Option.not_isSome_iff_eq_none] at hno
    simp [roundsLeft, hno.2.2]
  | write t =>
    cases t
    obtain ⟨c, hc, hi, htm⟩ : ∃ c, s'.call = update s.call () c ∧ c.i = (s.call ()).i + 1 ∧
        c.tmp = none := by
      simp only [next] at hn
      split at hn
      · cases hn
      · split at hn
        · cases hn
          exact ⟨_, rfl, rfl, rfl⟩
        · obtain ⟨tmp, -, rfl⟩ := Option.map_eq_some_iff.mp hn
          exact ⟨_, rfl, rfl, rfl⟩
    have hret : ¬ r.rounds size ≤ (s.call ()).i := fun h => by simp [next, Returned, h] at hn
    simp only [roundsLeft, hc, update_self, hi, htm, Option.isNone_none, Bool.toNat_true]
    omega

/-- One call with no other: it returns, and only the bytes that it reports have changed. -/
theorem write_range (size : ℕ) (dev : ℕ → UInt8) (r : Request) :
    (∃ s, Runs.Reaches (next size fun _ : Unit => r) (fun _ _ => True) { dev := dev } s ∧
      Returned size (fun _ => r) s ()) ∧
    ∀ s, Runs.Reaches (next size fun _ : Unit => r) (fun _ _ => True) { dev := dev } s →
      Returned size (fun _ => r) s () →
      (s.call ()).bytesWritten ≤ min r.buflen (size - r.off) ∧
      (0 < min r.buflen (size - r.off) → 0 < (s.call ()).bytesWritten) ∧
      (∀ k < (s.call ()).bytesWritten, s.dev (r.off + k) = r.data k) ∧
      ∀ a, ¬ (r.off ≤ a ∧ a < r.off + (s.call ()).bytesWritten) → s.dev a = dev a := by
  constructor
  · obtain ⟨s, hs, hed⟩ := Runs.exists_reaches_terminal
      (fun s : State Unit => roundsLeft size r (s.call ())) (fun _ _ _ _ hn => next_roundsLeft hn)
      { dev := dev }
    refine ⟨s, hs, by_contra fun hret => ?_⟩
    have hrd := hed (.read ()) trivial
    have hwr := hed (.write ()) trivial
    simp only [next, if_neg hret] at hwr
    split at hwr
    · cases hwr
    · next hal =>
      rw [Option.map_eq_none_iff] at hwr
      simp [next, hret, hal, hwr] at hrd
  · intro s hs hret
    have hiv : Inv size (fun _ => r) dev s := reached_inv (fun t u h => absurd rfl h)
      (hs.mono fun s e _ => by cases e <;> simp [Undisturbed])
    have hct : (s.call ()).bytesWritten = progress size r (s.call ()).i := by
      rw [hiv.count, if_neg fun h => h.2 hret]
    have hlen : r.len size = min r.buflen (size - r.off) := by
      unfold Request.len
      split_ifs <;> omega
    refine ⟨?_, fun hps => ?_, fun k hk => ?_, fun a ha => hiv.rest a fun t ht => ha ?_⟩
    · rw [hct, progress, hlen]
      omega
    · have hrnd : pagesFor (r.len size) ≤ (s.call ()).i ∨
          r.len size / archPageSize ≤ (s.call ()).i ∧ r.len size % archPageSize = 0 := by
        rw [Returned, Request.rounds] at hret
        split_ifs at hret with hal
        · exact .inr ⟨hret, hal.2.1⟩
        · exact .inl hret
      rw [hct, progress]
      unfold pagesFor archPageSize at *
      omega
    · rw [hiv.data () _ ⟨Nat.le_add_right .., Nat.add_lt_add_left (hct ▸ hk) _⟩,
        Nat.add_sub_cancel_left]
    · rw [hct]
      exact ht

end Write

end NvmeTransfer
