import SalernosKernel.IovIter
import SalernosKernel.RingBuffer

/-! # Scatter and gather through a ring buffer

`kioviter_read_to_ringbuffer_nolock` and `kioviter_write_from_ringbuffer_nolock` of
`com/lib/ioviter.c`, without blocking. What `check_hangup` reports stays the same during a call. -/
namespace RingTransfer

open RingBuffer (Ring Ret Hangup contents)
open List Option RingBuffer IovIter IovIter

structure Result (X : Type*) where
  state : X
  it : Ioviter
  count : ℕ
  ret : Ret

def report {X : Type*} (r : Result X) : Ret × ℕ × ℕ := (r.ret, r.count, r.it.totalOff)

def failed : Ret → Bool
  | .ok | .hangup 0 => false
  | _ => true

section Loop

variable {X : Type*} (fuel : ℕ) (call : X → ℕ → ℕ → Option (X × Ret × ℕ))

def transferLoop : ℕ → X → Ioviter → ℕ → ℕ → Option (Result X)
  | 0, _, _, _, _ => none
  | rounds + 1, x, it, count, totRem =>
    let copySize := min it.currRemaining totRem
    (call x (it.iov.iovBase + it.currOff) copySize).bind fun r =>
      if failed r.2.1 then some ⟨r.1, it, count, r.2.1⟩
      else (kioviterSkip fuel it copySize).bind fun k =>
        if totRem - r.2.2 ≠ 0 ∧ k.2.totalOff ≠ k.2.totalSize then
          transferLoop rounds r.1 k.2 (count + r.2.2) (totRem - r.2.2)
        else some ⟨r.1, k.2, count + r.2.2, .ok⟩

def transfer (x : X) (it : Ioviter) (nbytes : ℕ) : Option (Result X) :=
  (transferLoop fuel call fuel x it 0 (min nbytes it.remaining)).bind fun r =>
    if failed r.ret then
      (kioviterGoto fuel r.it (it.currOff + r.count)).map fun k => { r with it := k.2 }
    else some r

end Loop

section Calls

variable (atomicSize : ℕ) (h : Hangup)

def ringWrite (mem : ℕ → UInt8) (rb : Ring) (addr n : ℕ) : Option (Ring × Ret × ℕ) :=
  (enter atomicSize rb (.write ((List.range' addr n).map mem) false)).bind fun c =>
    (step atomicSize rb h c).bind fun r =>
      (complete atomicSize 0 r.1 r.2.1).map fun r => (r.1, r.2.1, r.2.2.1.getD 0)

def ringRead (x : Ring × (ℕ → UInt8)) (addr n : ℕ) : Option ((Ring × (ℕ → UInt8)) × Ret × ℕ) :=
  (enter atomicSize x.1 (.read n false)).bind fun c =>
    (step atomicSize x.1 h c).bind fun r =>
      (complete atomicSize 0 r.1 r.2.1).map fun r =>
        ((r.1, kmemcpy x.2 addr r.2.2.2), r.2.1, r.2.2.1.getD 0)

def kioviterReadToRingbufferNolock (fuel : ℕ) (mem : ℕ → UInt8) (rb : Ring) (it : Ioviter)
    (nbytes : ℕ) : Option (Result Ring) :=
  transfer fuel (ringWrite atomicSize h mem) rb it nbytes

def kioviterWriteFromRingbufferNolock (fuel : ℕ) (mem : ℕ → UInt8) (rb : Ring) (it : Ioviter)
    (nbytes : ℕ) : Option (Result (Ring × (ℕ → UInt8))) :=
  transfer fuel (ringRead atomicSize h) (rb, mem) it nbytes

end Calls

def lens (it : Ioviter) : List ℕ :=
  it.currRemaining :: (it.firstIov.drop (it.currIov + 1)).map Iovec.iovLen

section Pieces

variable (refuses : ℕ → ℕ → Prop)

def Whole : List ℕ → ℕ → ℕ → Prop
  | [], _, _ => True
  | n :: ns, t, avail => ¬ refuses (min n t) avail ∧ min n t ≤ avail ∧
      (t - min n t ≠ 0 → Whole ns (t - min n t) (avail - min n t))

def ShortEnd : List ℕ → ℕ → ℕ → Prop
  | [], _, _ => False
  | n :: ns, t, avail => ¬ refuses (min n t) avail ∧
      if min n t ≤ avail then t - min n t ≠ 0 ∧ ShortEnd ns (t - min n t) (avail - min n t)
      else min n t = n ∧ ns.sum = 0

/-- All pieces go through, or the iterator is in its first entry and ends with no short piece. -/
def Safe (it : Ioviter) (nbytes avail : ℕ) : Prop :=
  Whole refuses (lens it) (min nbytes it.remaining) avail ∨
    it.currOff = it.totalOff ∧ ¬ ShortEnd refuses (lens it) (min nbytes it.remaining) avail

instance Whole.decidable [DecidableRel refuses] : ∀ l t avail, Decidable (Whole refuses l t avail)
  | [], _, _ => .isTrue trivial
  | n :: ns, t, avail =>
    have := Whole.decidable ns (t - min n t) (avail - min n t)
    inferInstanceAs (Decidable (_ ∧ _ ∧ (_ → _)))

end Pieces

structure Spec {X : Type*} (call : X → ℕ → ℕ → Option (X × Ret × ℕ)) (ok : X → Prop) (avail : X → ℕ)
    (refuses : ℕ → ℕ → Prop) (moves : X → X → List ℕ → Prop) : Prop where
  refused : ∀ x addr n, ok x → refuses n (avail x) →
    ∃ ret m, call x addr n = some (x, ret, m) ∧ failed ret
  done : ∀ x addr n, ok x → ¬ refuses n (avail x) → ∃ x',
    call x addr n = some (x', .ok, min n (avail x)) ∧ ok x' ∧ avail x' = avail x - min n (avail x) ∧
      moves x x' (List.range' addr (min n (avail x)))
  empty : ∀ n, refuses n 0
  nil : ∀ x, moves x x []
  append : ∀ x y z l l', moves x y l → moves y z l' → moves x z (l ++ l')

section Loop

variable {X : Type*} {call : X → ℕ → ℕ → Option (X × Ret × ℕ)} {ok : X → Prop} {avail : X → ℕ}
  {refuses : ℕ → ℕ → Prop} {moves : X → X → List ℕ → Prop} {iov : List Iovec} {it : Ioviter}
  {fuel n k t : ℕ} {x : X}

theorem remaining_eq (h : Valid iov it) : it.remaining = (lens it).sum := by
  have hln := congrArg List.length h.cells_eq
  have hof := h.currOff
  rw [length_append, length_append, length_range', ← h.totalSize, length_cells (iov.drop _)] at hln
  rw [Ioviter.remaining, lens, sum_cons, Ioviter.currRemaining, h.totalOff, h.firstIov]
  omega

theorem lens_next (h : Valid iov it) (hmr : it.totalOff + it.currRemaining ≠ it.totalSize) :
    lens (it.advance it.currRemaining) = (lens it).tail := by
  obtain ⟨hvl, htt, hmo⟩ := h.advance (Nat.le_refl it.currRemaining)
  have hnx := hmo rfl hmr
  have hz : (it.advance it.currRemaining).currOff = 0 := by
    have hof := hvl.totalOff
    have hcrr := h.currOff
    have hbf := h.totalOff
    have hre : it.currRemaining = it.iov.iovLen - it.currOff := rfl
    rw [htt, hnx, length_take_succ h] at hof
    omega
  have hge := hvl.getElem
  rw [hnx] at hge
  obtain ⟨hlt, hge⟩ := List.getElem?_eq_some_iff.mp hge
  rw [lens, lens, tail_cons, hvl.firstIov, h.firstIov, hnx, drop_eq_getElem_cons hlt,
    map_cons, hge, Ioviter.currRemaining, hz, Nat.sub_zero]

section

variable (hs : Spec call ok avail refuses moves)

include hs

theorem transferLoop_refused (hx : ok x)
    (hrf : refuses (min it.currRemaining t) (avail x)) :
    ∃ ret, transferLoop fuel call (n + 1) x it k t = some ⟨x, it, k, ret⟩ ∧ failed ret := by
  obtain ⟨ret, m, hcl, hrt⟩ := hs.refused x (it.iov.iovBase + it.currOff) _ hx hrf
  exact ⟨ret, by rw [transferLoop, hcl, bind_some, if_pos hrt], hrt⟩

theorem transferLoop_round (hx : ok x)
    (h : Valid iov it) (hfue : 0 < fuel) {c : ℕ} (hc : min it.currRemaining t = c)
    (hrf : ¬ refuses c (avail x)) :
    ∃ x', ok x' ∧ avail x' = avail x - min c (avail x) ∧
      moves x x' (((cells iov).drop it.totalOff).take (min c (avail x))) ∧
      transferLoop fuel call (n + 1) x it k t =
        if t - min c (avail x) ≠ 0 ∧ (it.advance c).totalOff ≠ (it.advance c).totalSize then
          transferLoop fuel call n x' (it.advance c) (k + min c (avail x)) (t - min c (avail x))
        else some ⟨x', it.advance c, k + min c (avail x), .ok⟩ := by
  have hcr : c ≤ it.currRemaining := hc ▸ Nat.min_le_left ..
  obtain ⟨x', hcl, hx', hav, hmv⟩ := hs.done x (it.iov.iovBase + it.currOff) c hx hrf
  have hsk : kioviterSkip fuel it c = some ((it.advance c).remaining, it.advance c) := by
    rw [kioviterSkip, skipLoop_one hcr hfue]
    rfl
  refine ⟨x', hx', hav, ?_, ?_⟩
  · rw [h.block ((Nat.min_le_left ..).trans hcr)]
    exact hmv
  · rw [transferLoop, hc, hcl, bind_some, if_neg (by simp [failed]), hsk,
      bind_some]

theorem transferLoop_short (hx : ok x)
    (h : Valid iov it) (hfue : 0 < fuel) {c : ℕ} (hc : min it.currRemaining t = c)
    (hrf : ¬ refuses c (avail x)) (hlt : avail x < c) :
    ∃ r, transferLoop fuel call (n + 2) x it k t = some r ∧ Valid iov r.it ∧
      r.count = k + avail x ∧ moves x r.state (((cells iov).drop it.totalOff).take (avail x)) ∧
      if it.totalOff + c = it.totalSize then
        failed r.ret = false ∧ r.it.totalOff = r.it.totalSize
      else failed r.ret := by
  obtain ⟨hvl, htt, -⟩ := h.advance (hc ▸ Nat.min_le_left .. : c ≤ it.currRemaining)
  have hsz : (it.advance c).totalSize = it.totalSize := hvl.totalSize.trans h.totalSize.symm
  obtain ⟨x', hx', hav, hmv, hlp⟩ :=
    transferLoop_round (n := n + 1) (k := k) hs hx h hfue hc hrf
  rw [Nat.min_eq_right hlt.le] at hav hmv hlp
  rw [hlp, ← htt, ← hsz]
  by_cases hed : (it.advance c).totalOff = (it.advance c).totalSize
  · refine ⟨_, if_neg fun hmr => hmr.2 hed, hvl, rfl, hmv, ?_⟩
    rw [if_pos hed]
    exact ⟨rfl, hed⟩
  · obtain ⟨ret, hlp', hrt⟩ := transferLoop_refused hs hx'
      (by rw [hav, Nat.sub_self]; exact hs.empty _)
    refine ⟨_, (if_pos ⟨by omega, hed⟩).trans hlp', hvl, rfl, hmv, ?_⟩
    rw [if_neg hed]
    exact hrt

theorem transferLoop_cases (hx : ok x)
    (h : Valid iov it) (ht : t ≤ it.remaining)
    (hn : iov.length < it.currIov + n) (hfue : 0 < fuel) :
    ∃ r m, transferLoop fuel call n x it k t = some r ∧ Valid iov r.it ∧
      r.count = k + m ∧ m ≤ t ∧ moves x r.state (((cells iov).drop it.totalOff).take m) ∧
      (Whole refuses (lens it) t (avail x) ∧ failed r.ret = false ∧ m = t ∧
          r.it.totalOff = it.totalOff + t ∨
        ¬ Whole refuses (lens it) t (avail x) ∧ ¬ ShortEnd refuses (lens it) t (avail x) ∧
          failed r.ret ∨
        ¬ Whole refuses (lens it) t (avail x) ∧ ShortEnd refuses (lens it) t (avail x) ∧
          failed r.ret = false ∧ m < t ∧ r.it.totalOff = r.it.totalSize) := by
  induction n generalizing x it k t with
  | zero => exact absurd h.inside (by omega)
  | succ n ih =>
    obtain ⟨c, hc⟩ : ∃ c, min it.currRemaining t = c := ⟨_, rfl⟩
    obtain ⟨hvl, htt, hmo⟩ := h.advance (hc ▸ Nat.min_le_left .. : c ≤ it.currRemaining)
    have hsz : (it.advance c).totalSize = it.totalSize := hvl.totalSize.trans h.totalSize.symm
    have hre := remaining_eq h
    rw [lens, sum_cons, Ioviter.remaining] at hre
    rw [Ioviter.remaining] at ht
    rw [lens, Whole, ShortEnd, hc]
    by_cases hrf : refuses c (avail x)
    · obtain ⟨ret, hlp, hrt⟩ := transferLoop_refused hs hx (hc ▸ hrf)
      exact ⟨_, 0, hlp, h, rfl, Nat.zero_le t, by simpa using hs.nil x,
        .inr (.inl ⟨fun hw => hw.1 hrf, fun hsh => hsh.1 hrf, hrt⟩)⟩
    by_cases hle : c ≤ avail x
    · obtain ⟨x', hx', hav, hmv, hlp⟩ :=
        transferLoop_round (n := n) (k := k) hs hx h hfue hc hrf
      rw [Nat.min_eq_left hle] at hav hmv hlp
      rw [hlp, if_pos hle]
      by_cases hls : t - c = 0
      · refine ⟨_, c, if_neg fun hmr => hmr.1 hls, hvl, rfl, by omega, hmv,
          .inl ⟨⟨hrf, hle, fun hmr => absurd hls hmr⟩, rfl, by omega, ?_⟩⟩
        rw [htt]
        omega
      · -- The piece ends the entry, and the rest is that of the entries behind it.
        obtain rfl : c = it.currRemaining := by omega
        have hmr : it.totalOff + it.currRemaining ≠ it.totalSize := by omega
        rw [if_pos ⟨hls, by rw [htt, hsz]; exact hmr⟩]
        obtain ⟨r, m, hr, hv, hct, hm, hms, hcs⟩ := ih (k := k + it.currRemaining)
          (t := t - it.currRemaining) hx' hvl
          (by rw [Ioviter.remaining, hsz, htt]; omega) (by rw [hmo rfl hmr]; omega)
        rw [lens_next h hmr, lens, tail_cons, hav, htt] at hcs
        refine ⟨r, it.currRemaining + m, hr, hv, by omega, by omega, ?_, ?_⟩
        · rw [take_add, drop_drop]
          exact hs.append x x' r.state _ _ hmv (htt ▸ hms)
        · rcases hcs with ⟨hw, hrt, hm', hed⟩ | ⟨hw, hsh, hrt⟩ |
            ⟨hw, hsh, hrt, hm', hed⟩
          · exact .inl ⟨⟨hrf, hle, fun _ => hw⟩, hrt, by omega, by omega⟩
          · exact .inr (.inl ⟨fun h => hw (h.2.2 hls), fun h => hsh h.2.2, hrt⟩)
          · exact .inr (.inr ⟨fun h => hw (h.2.2 hls), ⟨hrf, hls, hsh⟩, hrt, by omega,
              hed⟩)
    · obtain ⟨n, rfl⟩ : ∃ n', n = n' + 1 := ⟨n - 1, by have := h.inside; omega⟩
      obtain ⟨r, hr, hv, hct, hms, hed⟩ :=
        transferLoop_short (n := n) (k := k) hs hx h hfue hc hrf (by omega)
      refine ⟨r, avail x, hr, hv, hct, by omega, hms, .inr ?_⟩
      rw [if_neg hle]
      split_ifs at hed with hfl
      · exact .inr ⟨fun h => hle h.2.1, ⟨hrf, by omega⟩, hed.1, by omega, hed.2⟩
      · exact .inl ⟨fun h => hle h.2.1, fun h => hfl (by omega), hed⟩

end

/-- What was moved is what follows the old position, and the iterator is behind it. -/
def Exact (moves : X → X → List ℕ → Prop) (iov : List Iovec) (x : X) (it : Ioviter) (r : Result X) :
    Prop :=
  Valid iov r.it ∧ r.it.totalOff = it.totalOff + r.count ∧
    moves x r.state (((cells iov).drop it.totalOff).take r.count)

theorem transfer_exact_iff (hs : Spec call ok avail refuses moves) (hx : ok x)
    (h : Valid iov it) (hfue : iov.length < fuel) (nbytes : ℕ) :
    ∃ r, transfer fuel call x it nbytes = some r ∧ (Exact moves iov x it r ↔
      Safe refuses it nbytes (avail x)) := by
  obtain ⟨r, m, hr, hv, hct, hm, hms, hcs⟩ := transferLoop_cases (k := 0) hs hx h
    (min_le_right nbytes _) (by omega : _ < it.currIov + fuel) (by omega : 0 < fuel)
  rw [zero_add] at hct
  subst hct
  have hle := h.le_size
  have hcrr : it.currOff ≤ it.totalOff := by
    rw [h.totalOff]
    omega
  have hsz : it.totalSize = it.totalOff + it.remaining := by
    rw [Ioviter.remaining]
    omega
  rw [transfer, hr, bind_some]
  rcases hcs with ⟨hw, hrt, hm', hed⟩ | ⟨hw, hsh, hrt⟩ | ⟨hw, hsh, hrt, hm', hed⟩
  · refine ⟨r, if_neg (by simp [hrt]), iff_of_true ⟨hv, ?_, hms⟩ (.inl hw)⟩
    rw [hed, hm']
  · obtain ⟨it', hgt, hv', htt⟩ := hv.goto hfue.le (it.currOff + r.count)
    refine ⟨{ r with it := it' }, by rw [if_pos hrt, hgt]; rfl, ?_⟩
    rw [← h.totalSize] at htt
    constructor
    · rintro ⟨-, hpos, -⟩
      dsimp only at hpos
      exact .inr ⟨by omega, hsh⟩
    · intro hcn
      have heq := (hcn.resolve_left hw).1
      refine ⟨hv', ?_, hms⟩
      dsimp only
      omega
  · refine ⟨r, if_neg (by simp [hrt]), iff_of_false ?_ fun hcn => ?_⟩
    · rintro ⟨-, hpos, -⟩
      rw [hv.totalSize, ← h.totalSize] at hed
      omega
    · exact (hcn.resolve_left hw).2 hsh

end Loop

variable {atomicSize : ℕ} {h : Hangup} {mem : ℕ → UInt8} {rb : Ring}

theorem failed_hangup {ret : ℕ} (hrt : ret ≠ 0) : failed (.hangup ret) := by
  cases ret with
  | zero => exact absurd rfl hrt
  | succ ret => rfl

def Appends (mem : ℕ → UInt8) (rb rb' : Ring) (l : List ℕ) : Prop :=
  contents rb' = contents rb ++ l.map mem

def store (mem : ℕ → UInt8) : List ℕ → List UInt8 → ℕ → UInt8
  | a :: l, b :: bytes => store (Function.update mem a b) l bytes
  | _, _ => mem

def Fills (x x' : Ring × (ℕ → UInt8)) (l : List ℕ) : Prop :=
  ∃ bytes, bytes.length = l.length ∧ contents x.1 = bytes ++ contents x'.1 ∧
    x'.2 = store x.2 l bytes

def Ready (atomicSize : ℕ) (rb : Ring) : Prop :=
  Valid rb ∧ atomicSize < rb.bufferSize.toNat

def Plain (h : Hangup) : Prop := h.ret ≠ 0 ∨ h = noHangup

def WriteRefused (atomicSize : ℕ) (h : Hangup) (n avail : ℕ) : Prop :=
  h.ret ≠ 0 ∨ min n avail < atomicSize

instance : DecidableRel (WriteRefused atomicSize h) := fun _ _ =>
  inferInstanceAs (Decidable (_ ∨ _))

def ReadRefused (atomicSize : ℕ) (h : Hangup) (_n avail : ℕ) : Prop :=
  h.ret ≠ 0 ∨ avail < atomicSize

theorem store_append {l : List ℕ} {bytes : List UInt8} (hln : bytes.length = l.length)
    (l' : List ℕ) (bytes' : List UInt8) :
    store mem (l ++ l') (bytes ++ bytes') = store (store mem l bytes) l' bytes' := by
  induction l generalizing mem bytes with
  | nil =>
    rw [length_eq_zero_iff.mp hln]
    rfl
  | cons a l ih =>
    cases bytes with
    | nil => cases hln
    | cons b bytes => exact ih (Nat.succ.inj hln)

theorem store_range' (mem : ℕ → UInt8) (addr : ℕ) (bytes : List UInt8) :
    store mem (range' addr bytes.length) bytes = kmemcpy mem addr bytes := by
  induction bytes generalizing mem addr with
  | nil =>
    funext i
    simp [kmemcpy, store]
  | cons b bytes ih =>
    rw [length_cons, List.range'_succ, store, ih]
    funext i
    simp only [kmemcpy]
    rcases lt_trichotomy i addr with hlt | rfl | hlt
    · rw [if_neg (by omega), if_neg (by omega), Function.update_of_ne (by omega)]
    · simp
    · obtain ⟨j, rfl⟩ : ∃ j, i = addr + 1 + j := ⟨i - (addr + 1), by omega⟩
      rw [if_pos (by omega), if_pos (by omega), Function.update_of_ne (by omega),
        Nat.add_sub_cancel_left, show addr + 1 + j - addr = j + 1 by omega, getD_cons_succ]

theorem ringWrite_eq (hrdy : Ready atomicSize rb) (hpl : Plain h) (mem : ℕ → UInt8)
    (addr n : ℕ) :
    ringWrite atomicSize h mem rb addr n =
      if h.ret ≠ 0 then some (rb, .hangup h.ret, h.nbytes.getD n)
      else if min n rb.availWrite.toNat < atomicSize then some (rb, .EAGAIN, n)
      else some (rb.put ((range' addr n).map mem) (min n rb.availWrite.toNat), .ok,
        min n rb.availWrite.toNat) := by
  have hne : rb.bufferSize ≠ 0 := by
    intro hz
    have hsz := hrdy.2
    rw [hz] at hsz
    exact absurd hsz (Nat.not_lt_zero _)
  rw [ringWrite, enter, if_pos ⟨hne, hrdy.2⟩, bind_some, if_neg (by simp),
    step, bind_some, length_map, length_range']
  rcases hpl with hrt | rfl
  · rw [if_pos (.inl hrt), if_pos hrt, complete_returned]
    rfl
  · rw [if_neg (by decide), show noHangup.nbytes.getD n = n from rfl, if_neg (by decide),
      writeOnce]
    split_ifs
    · rfl
    · rw [complete_returned]
      rfl

theorem ringWrite_spec (hpos : 0 < atomicSize) (hpl : Plain h) :
    Spec (ringWrite atomicSize h mem) (Ready atomicSize) (fun rb => rb.availWrite.toNat)
      (WriteRefused atomicSize h) (Appends mem) where
  refused rb addr n hrdy hrf := by
    rw [ringWrite_eq hrdy hpl]
    by_cases hrt : h.ret ≠ 0
    · rw [if_pos hrt]
      exact ⟨_, _, rfl, failed_hangup hrt⟩
    · rw [if_neg hrt, if_pos (hrf.resolve_left hrt)]
      exact ⟨_, _, rfl, rfl⟩
  done rb addr n hrdy hrf := by
    obtain ⟨hrt, hrm⟩ := not_or.mp hrf
    have hn := Nat.min_le_right n rb.availWrite.toNat
    have hln : min n rb.availWrite.toNat ≤ ((range' addr n).map mem).length := by
      rw [length_map, length_range']
      exact Nat.min_le_left ..
    have hvl := hrdy.1.put hn ((range' addr n).map mem)
    rw [ringWrite_eq hrdy hpl, if_neg hrt, if_neg hrm]
    refine ⟨_, rfl, ⟨hvl, hrdy.2⟩, ?_, ?_⟩
    · have hbd := hrdy.1.bounded
      have hrm := availWrite_toNat hbd
      rw [availWrite_toNat hvl.bounded, availRead_put_toNat hbd hn]
      change rb.bufferSize.toNat - _ = _
      omega
    · rw [Appends, contents_put hrdy.1 hln hn, ← map_take,
        take_range'_of_length_ge (Nat.min_le_left ..)]
  empty n := .inr ((Nat.min_le_right n 0).trans_lt hpos)
  nil rb := by simp [Appends]
  append rb rb₁ rb₂ l l' hfr hback := by
    rw [Appends] at *
    rw [hback, hfr, map_append, append_assoc]

theorem ringRead_eq (hrdy : Ready atomicSize rb) (hef : rb.isEof = false) (hpl : Plain h)
    (mem : ℕ → UInt8) (addr n : ℕ) :
    ringRead atomicSize h (rb, mem) addr n =
      if h.ret ≠ 0 then some ((rb, mem), .hangup h.ret, 0)
      else if rb.availRead.toNat < atomicSize then some ((rb, mem), .EAGAIN, 0)
      else some (((rb.get (min n rb.availRead.toNat)).2,
        kmemcpy mem addr (rb.get (min n rb.availRead.toNat)).1), .ok,
          min n rb.availRead.toNat) := by
  have hnl : kmemcpy mem addr [] = mem := (store_range' mem addr []).symm
  rw [ringRead, enter, bind_some, step]
  rcases hpl with hrt | rfl
  · rw [if_pos (.inl hrt), if_pos hrt, bind_some, complete_returned, map_some, hnl]
    rfl
  · rw [if_neg (by decide), if_pos hrdy.2, bind_some, if_neg (by decide),
      show noHangup.nbytes.getD n = n from rfl, readTest]
    by_cases hrm : rb.availRead.toNat < atomicSize
    · rw [if_pos ⟨hrm, by simp [hef]⟩, if_neg (by simp), complete_returned,
        if_pos hrm, map_some, hnl]
      rfl
    · rw [if_neg (fun hbt => hrm hbt.1), readEnd, if_neg (by simp [hef]),
        complete_returned, if_neg hrm]
      rfl

theorem ringRead_spec (hpos : 0 < atomicSize) (hpl : Plain h) :
    Spec (ringRead atomicSize h) (fun x => Ready atomicSize x.1 ∧ x.1.isEof = false)
      (fun x => x.1.availRead.toNat) (ReadRefused atomicSize h) Fills where
  refused x addr n hrdy hrf := by
    rw [ringRead_eq hrdy.1 hrdy.2 hpl]
    by_cases hrt : h.ret ≠ 0
    · rw [if_pos hrt]
      exact ⟨_, _, rfl, failed_hangup hrt⟩
    · rw [if_neg hrt, if_pos (hrf.resolve_left hrt)]
      exact ⟨_, _, rfl, rfl⟩
  done x addr n hrdy hrf := by
    obtain ⟨⟨hvl, hsz⟩, hef⟩ := hrdy
    obtain ⟨hrt, hrm⟩ := not_or.mp hrf
    have hn := Nat.min_le_right n x.1.availRead.toNat
    have hge := contents_get hvl hn
    have hav := availRead_get_toNat hn
    have hln : (x.1.get (min n x.1.availRead.toNat)).1.length = min n x.1.availRead.toNat := by
      have := congrArg List.length hge
      simp only [contents, length_append, length_map, length_range] at this
      omega
    rw [ringRead_eq ⟨hvl, hsz⟩ hef hpl, if_neg hrt, if_neg hrm]
    refine ⟨_, rfl, ⟨⟨hvl.get hn, hsz⟩, hef⟩, hav, _, ?_, hge, ?_⟩
    · rw [hln, length_range']
    · rw [← store_range', hln]
  empty _ := .inr hpos
  nil x := ⟨[], rfl, rfl, rfl⟩
  append x y z l l' := by
    rintro ⟨bytes, hln, hfr, hme⟩ ⟨bytes', hln', hfr', hme'⟩
    refine ⟨bytes ++ bytes', ?_, ?_, ?_⟩
    · rw [length_append, length_append, hln, hln']
    · rw [hfr, hfr', append_assoc]
    · rw [hme', hme, store_append hln]

/-- A transfer moves the bytes behind the position and ends behind them exactly if it is safe. -/
theorem ring_transfer_exact {iov : List Iovec} {it : Ioviter} {fuel : ℕ}
    (hit : Valid iov it) (hready : Ready atomicSize rb) (hpos : 0 < atomicSize) (hplain : Plain h)
    (hfuel : iov.length < fuel) (mem : ℕ → UInt8) (nbytes : ℕ) :
    (∃ r, kioviterReadToRingbufferNolock atomicSize h fuel mem rb it nbytes = some r ∧ (Exact
      (Appends mem) iov rb it r ↔ Safe (WriteRefused atomicSize h) it nbytes rb.availWrite.toNat)) ∧
    (rb.isEof = false → ∃ r, kioviterWriteFromRingbufferNolock atomicSize h fuel mem rb it nbytes =
      some r ∧ (Exact Fills iov (rb, mem) it r ↔ Safe (ReadRefused atomicSize h) it nbytes
      rb.availRead.toNat)) :=
  ⟨transfer_exact_iff (ringWrite_spec hpos hplain) hready hit hfuel nbytes, fun hef =>
    transfer_exact_iff (x := (rb, mem)) (ringRead_spec hpos hplain) ⟨hready, hef⟩ hit hfuel nbytes⟩

def sampleIov : List Iovec := [⟨16, 2⟩, ⟨32, 2⟩]

def sampleRing (used : BitVec 64) (isEof : Bool) : Ring := ⟨fun _ => 0, 8, used, 0, isEof⟩

def samplePosition (off : ℕ) : Ioviter :=
  ((kioviterGoto 3 (kioviterInit sampleIov) off).map Prod.snd).getD
    (kioviterInit sampleIov)

theorem ring_transfer_exact_whole : ∃ r, kioviterReadToRingbufferNolock 1 noHangup 3
      UInt8.ofNat (sampleRing 3 false) (kioviterInit sampleIov) 4 = some r ∧
    Exact (Appends UInt8.ofNat) sampleIov (sampleRing 3 false) (kioviterInit sampleIov) r := by
  have hit : Valid sampleIov (kioviterInit sampleIov) :=
    @IovIter.valid_first sampleIov (kioviterInit sampleIov) (by decide) rfl rfl
  have hrdy : Ready 1 (sampleRing 3 false) := ⟨⟨⟨3, by decide, rfl⟩, by decide⟩, by decide⟩
  obtain ⟨⟨r, hr, hif⟩, -⟩ := ring_transfer_exact hit hrdy (by decide) (.inr rfl)
    (by decide : sampleIov.length < 3) UInt8.ofNat 4
  exact ⟨r, hr, hif.mpr (.inl (by decide +kernel))⟩

/-- A gather that is cut short, one that is refused behind the first entry, and a scatter that is
cut short, meets an end of file or is made to return. -/
theorem ring_transfer_gap : (samplePosition 2).totalOff = 2 ∧
    (kioviterReadToRingbufferNolock 1 noHangup 3 UInt8.ofNat (sampleRing 7 false)
      (samplePosition 2) 2).map report = some (.ok, 1, 4) ∧
    (samplePosition 3).totalOff = 3 ∧
    (kioviterReadToRingbufferNolock 1 noHangup 3 UInt8.ofNat (sampleRing 8 false)
      (samplePosition 3) 1).map report = some (.EAGAIN, 0, 1) ∧
    (kioviterWriteFromRingbufferNolock 1 noHangup 3 UInt8.ofNat (sampleRing 1 false)
      (samplePosition 2) 2).map report = some (.ok, 1, 4) ∧
    (kioviterWriteFromRingbufferNolock 1 noHangup 3 UInt8.ofNat (sampleRing 1 true)
      (samplePosition 2) 2).map report = some (.ok, 0, 4) ∧
    (kioviterWriteFromRingbufferNolock 1 ⟨0, some 0, true⟩ 3 UInt8.ofNat (sampleRing 1 false)
      (samplePosition 2) 2).map report = some (.ok, 0, 4) := by
  decide +kernel

end RingTransfer
