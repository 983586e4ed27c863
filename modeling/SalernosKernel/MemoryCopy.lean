import Mathlib.Data.BitVec
import Mathlib.Data.PNat.Basic

/-! # Moving and repeating bytes

`kmemcpy`, `kmemmove` and `kmemrepcpy` of `lib/mem.c` over the `rep movsb` of `arch/libhelp.h`.
Addresses wrap around. -/
namespace MemoryCopy

open Function
open BitVec (ofNat)

abbrev Mem := BitVec 64 → UInt8

/-- `std` makes both pointers step down from where they start. -/
def repMovsb (std : Bool) (mem : Mem) (dst src : BitVec 64) : ℕ → Mem
  | 0 => mem
  | n + 1 =>
    let d : BitVec 64 := if std then -1 else 1
    repMovsb std (update mem dst (mem src)) (dst + d) (src + d) n

def kmemcpy (mem : Mem) (dst src : BitVec 64) (n : ℕ) : Mem := repMovsb false mem dst src n

def kmemmove (mem : Mem) (dst src : BitVec 64) (n : ℕ) : Mem :=
  if src > dst then kmemcpy mem dst src n
  else if src < dst then repMovsb true mem dst src n
  else mem

/-- Copied as if all of the source were read first. -/
def Copied (mem mem' : Mem) (dst src : BitVec 64) (n : ℕ) : Prop :=
  ∀ a, mem' a = if (a - dst).toNat < n then mem (a - dst + src) else mem a

variable {mem mem' : Mem} {dst src a : BitVec 64} {n : ℕ}

theorem kmemcpy_copied (h : n ≤ (dst - src).toNat) :
    Copied mem (kmemcpy mem dst src n) dst src n := by
  induction n generalizing mem dst src with
  | zero => exact fun a => (if_neg (Nat.not_lt_zero _)).symm
  | succ n ih =>
    intro a
    have hnx : Copied (update mem dst (mem src)) (kmemcpy _ (dst + 1) (src + 1) n) _ _ n :=
      ih (by bv_omega)
    change kmemcpy _ (dst + 1) (src + 1) n a = _
    rw [hnx, show a - (dst + 1) + (src + 1) = a - dst + src by bv_omega]
    by_cases ha : a = dst
    · subst ha
      rw [if_neg (by bv_omega), if_pos (by bv_omega), update_self]
      simp
    · rw [update_of_ne ha]
      by_cases hlt : (a - dst).toNat < n + 1
      · rw [if_pos (by bv_omega), if_pos hlt, update_of_ne (by bv_omega)]
      · rw [if_neg (by bv_omega), if_neg hlt]

theorem repMovsb_down_of_le (h : n ≤ (dst - a).toNat) : repMovsb true mem dst src n a = mem a := by
  induction n generalizing mem dst src with
  | zero => rfl
  | succ n ih =>
    rw [repMovsb, if_pos rfl, ih (by bv_omega), update_of_ne (by bv_omega)]

structure Move where
  dst : BitVec 64
  src : BitVec 64
  n : ℕ
  dst_le : dst.toNat + n ≤ 2 ^ 64
  src_le : src.toNat + n ≤ 2 ^ 64

def Move.Moves (m : Move) : Prop := ∀ mem, Copied mem (kmemmove mem m.dst m.src m.n) m.dst m.src m.n

/-- Upwards the copy begins at the lowest byte as well, and is right for one byte only. -/
theorem moves_iff (m : Move) : m.Moves ↔ m.dst ≤ m.src ∨ m.n ≤ 1 := by
  obtain ⟨dst, src, n, hds, hsr⟩ := m
  constructor
  · intro h
    by_contra hno
    have hlt : src < dst := by bv_omega
    have hme := h (fun a => if a = dst + 1 then 1 else 0) (dst + 1)
    rw [kmemmove, if_neg (by bv_omega), if_pos hlt, repMovsb_down_of_le (by bv_omega)] at hme
    dsimp only at hme
    rw [if_pos rfl, if_pos (by bv_omega), if_neg (by bv_omega)] at hme
    cases hme
  · intro h mem
    rw [kmemmove]
    split_ifs with hgt hlt
    · exact kmemcpy_copied (by bv_omega)
    · have hon : n ≤ 1 := h.resolve_left (by bv_omega)
      have hcp : repMovsb true mem dst src n = kmemcpy mem dst src n := by
        match n, hon with
        | 0, _ | 1, _ => rfl
      rw [hcp]
      exact kmemcpy_copied (by bv_omega)
    · obtain rfl : src = dst := by bv_omega
      intro a
      simp

/-- The byte behind the first is not written, and one in front of the target is. -/
theorem move_wrong : ∃ m : Move, m.dst = 16 ∧ m.src = 15 ∧ m.n = 2 ∧ ¬ m.Moves :=
  ⟨⟨16, 15, 2, by decide, by decide⟩, rfl, rfl, rfl, fun h =>
    absurd (h (fun a => if a = 17 then 1 else 0) 17) (by decide)⟩

section Repeat

def repeatLoop (dst : BitVec 64) (dstSize : ℕ) : ℕ → Mem → ℕ → Option Mem
  | 0, _, _ => none
  | rounds + 1, mem, copied =>
    if copied < dstSize then
      let toCopy := if copied + copied > dstSize then dstSize - copied else copied
      repeatLoop dst dstSize rounds (kmemcpy mem (dst + ofNat 64 copied) dst toCopy)
        (copied + toCopy)
    else some mem

/-- No result is a loop that goes on. -/
def kmemrepcpy (rounds : ℕ) (mem : Mem) (dst src : BitVec 64) (buffsize rep : ℕ) : Option Mem :=
  if rep = 0 ∨ buffsize = 0 then some mem
  else repeatLoop dst (buffsize * rep) rounds (kmemcpy mem dst src buffsize) buffsize

structure Fill where
  dst : BitVec 64
  src : BitVec 64
  buffsize : ℕ+
  rep : ℕ+
  lt : (buffsize * rep : ℕ) < 2 ^ 63
  disjoint : buffsize ≤ (dst - src).toNat

def Repeated (f : Fill) (mem mem' : Mem) (size : ℕ) : Prop :=
  ∀ a, mem' a = if (a - f.dst).toNat < size then
    mem (f.src + ofNat 64 ((a - f.dst).toNat % f.buffsize)) else mem a

theorem Repeated.copy {f : Fill} {copied toCopy : ℕ} (h : Repeated f mem mem' copied)
    (hdv : ↑f.buffsize ∣ copied) (hto : toCopy ≤ copied) (hsm : copied + toCopy < 2 ^ 63) :
    Repeated f mem (kmemcpy mem' (f.dst + ofNat 64 copied) f.dst toCopy) (copied + toCopy) := by
  intro a
  rw [kmemcpy_copied (by bv_omega)]
  by_cases ha : (a - (f.dst + ofNat 64 copied)).toNat < toCopy
  · have hof : (a - f.dst).toNat = copied + (a - (f.dst + ofNat 64 copied)).toNat := by bv_omega
    rw [if_pos ha, h, BitVec.add_sub_cancel, if_pos (by omega), if_pos (by omega), hof,
      Nat.add_mod, Nat.mod_eq_zero_of_dvd hdv, Nat.zero_add, Nat.mod_mod]
  · rw [if_neg ha, h]
    exact if_congr (by bv_omega) rfl rfl

theorem repeatLoop_repeated {f : Fill} {copied : ℕ} (rounds : ℕ) (h : Repeated f mem mem' copied)
    (hps : 0 < copied) (hdv : ↑f.buffsize ∣ copied) (hle : copied ≤ f.buffsize * f.rep)
    (hrn : f.buffsize * f.rep < copied + rounds) :
    ∃ mem'', repeatLoop f.dst (f.buffsize * f.rep) rounds mem' copied = some mem'' ∧
      Repeated f mem mem'' (f.buffsize * f.rep) := by
  have hsz := f.lt
  induction rounds generalizing mem' copied with
  | zero => omega
  | succ rounds ih =>
    rw [repeatLoop]
    split_ifs with hlt hover
    · have hrs : copied + (f.buffsize * f.rep - copied) = f.buffsize * f.rep := by omega
      refine ih (h.copy hdv (by omega) (by omega)) ?_ ?_ hrs.le ?_
      all_goals rw [hrs]
      · omega
      · exact Nat.dvd_mul_right ..
      · omega
    · exact ih (h.copy hdv le_rfl (by omega)) (by omega) (Nat.dvd_add hdv hdv) (by omega)
        (by omega)
    · exact ⟨mem', rfl, le_antisymm hle (not_lt.mp hlt) ▸ h⟩

/-- `kmemrepcpy` returns, and each of the records is the model. -/
theorem kmemrepcpy_repeats (f : Fill) (mem : Mem) :
    ∃ rounds mem', kmemrepcpy rounds mem f.dst f.src f.buffsize f.rep = some mem' ∧
      Repeated f mem mem' (f.buffsize * f.rep) ∧ ∀ k < (f.rep : ℕ), ∀ j < (f.buffsize : ℕ),
        mem' (f.dst + ofNat 64 (f.buffsize * k + j)) = mem (f.src + ofNat 64 j) := by
  have hfr : Repeated f mem (kmemcpy mem f.dst f.src f.buffsize) f.buffsize := by
    intro a
    rw [kmemcpy_copied f.disjoint]
    refine ite_congr rfl (fun ha => ?_) fun _ => rfl
    rw [Nat.mod_eq_of_lt ha]
    congr 1
    bv_omega
  obtain ⟨mem', hme', hrp⟩ := repeatLoop_repeated (f.buffsize * f.rep) hfr
    f.buffsize.2 dvd_rfl (Nat.le_mul_of_pos_right _ f.rep.2)
    (Nat.lt_add_of_pos_left f.buffsize.2)
  refine ⟨f.buffsize * f.rep, mem', ?_, hrp, fun k hk j hj => ?_⟩
  · rw [kmemrepcpy, if_neg (by simp)]
    exact hme'
  · have hin : f.buffsize * k + j < f.buffsize * f.rep := by
      have := Nat.mul_le_mul_left (f.buffsize : ℕ) (Nat.succ_le_of_lt hk)
      rw [Nat.mul_succ] at this
      omega
    have hsz := f.lt
    have hof : (f.dst + ofNat 64 (f.buffsize * k + j) - f.dst).toNat = f.buffsize * k + j := by
      bv_omega
    rw [hrp, hof, if_pos hin, Nat.mul_add_mod, Nat.mod_eq_of_lt hj]

/-- Three times the four bytes in front of the destination. -/
theorem kmemrepcpy_repeats_sample : ∃ rounds mem',
    kmemrepcpy rounds (fun a => UInt8.ofNat a.toNat) 0x1004 0x1000 4 3 = some mem' ∧
      mem' 0x100d = 1 := by
  obtain ⟨rounds, mem', hrun, -, hrecord⟩ :=
    kmemrepcpy_repeats ⟨0x1004, 0x1000, 4, 3, by decide, by decide⟩ _
  exact ⟨rounds, mem', hrun, hrecord 2 (by decide) 1 (by decide)⟩

end Repeat

end MemoryCopy
