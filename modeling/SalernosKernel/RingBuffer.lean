import Mathlib.Algebra.Order.Ring.Nat
import Mathlib.Data.List.GetD
import SalernosKernel.Runs

/-! # The ring buffer

`com/lib/ringbuffer.c`: a circular array behind two free-running 64-bit indices. A call of
`kringbuffer_write_nolock` or `kringbuffer_read_nolock` is cut at its checks for a hangup and at its
waits. -/
namespace RingBuffer

open List
open BitVec (ofNat toNat_add toNat_ofNat)

structure Ring where
  buffer : ℕ → UInt8
  bufferSize : BitVec 64
  writeIndex : BitVec 64
  readIndex : BitVec 64
  isEof : Bool

def kmodFast (value multiple : BitVec 64) : BitVec 64 := value &&& (multiple - 1)

def kmemcpy (buffer : ℕ → UInt8) (off : ℕ) (bytes : List UInt8) : ℕ → UInt8 := fun i =>
  if off ≤ i then bytes.getD (i - off) (buffer i) else buffer i

namespace Ring

variable (rb : Ring)

def availRead : BitVec 64 := rb.writeIndex - rb.readIndex

def availWrite : BitVec 64 := rb.bufferSize - rb.availRead

def put (buf : List UInt8) (canWrite : ℕ) : Ring :=
  let idxoff := (kmodFast rb.writeIndex rb.bufferSize).toNat
  let left := rb.bufferSize.toNat - idxoff
  let buffer := kmemcpy rb.buffer idxoff (buf.take (min canWrite left))
  { rb with
    buffer := if left < canWrite then kmemcpy buffer 0 ((buf.drop left).take (canWrite - left))
      else buffer
    writeIndex := rb.writeIndex + ofNat 64 canWrite }

def get (canRead : ℕ) : List UInt8 × Ring :=
  let idxoff := (kmodFast rb.readIndex rb.bufferSize).toNat
  let left := rb.bufferSize.toNat - idxoff
  ((List.range' idxoff (min canRead left)).map rb.buffer ++
      (List.range (canRead - left)).map rb.buffer,
    { rb with readIndex := rb.readIndex + ofNat 64 canRead })

end Ring

/-- What `check_hangup` returns, what it stores through `new_nbytes` and `force_return`. Without a
handler it is `noHangup`. -/
structure Hangup where
  ret : ℕ
  nbytes : Option ℕ
  forceReturn : Bool
  deriving DecidableEq

def noHangup : Hangup := ⟨0, none, false⟩

def Hangup.Ends (h : Hangup) : Prop := h.ret ≠ 0 ∨ h.forceReturn
  deriving Decidable

inductive Ret where
  | ok
  | EAGAIN
  | EINTR
  | hangup (ret : ℕ)
  deriving DecidableEq

/-- Where a call is: at a check for a hangup, in a wait or at its end, with the value stored through
`bytes_written` or `bytes_read`, if one is, and the bytes copied to `dst`. -/
inductive Call where
  | writing (buf : List UInt8) (buflen bytesWritten : ℕ)
  | writeWaiting (buf : List UInt8) (buflen bytesWritten : ℕ)
  | writingOnce (buf : List UInt8)
  | reading (nbytes : ℕ) (blocking : Bool)
  | readWaiting (nbytes : ℕ)
  | returned (ret : Ret) (stored : Option ℕ) (dst : List UInt8)
  deriving DecidableEq

def Waits : Call → Prop
  | .writeWaiting _ _ _ => True
  | .readWaiting _ => True
  | _ => False

instance (call : Call) : Decidable (Waits call) := by
  cases call <;> simp only [Waits] <;> infer_instance

inductive Request where
  | write (buf : List UInt8) (blocking : Bool)
  | read (nbytes : ℕ) (blocking : Bool)
  deriving DecidableEq

section Steps

variable (atomicSize : ℕ) (rb : Ring)

def writeTop (buf : List UInt8) (buflen bytesWritten : ℕ) : Call :=
  if buf = [] then .returned .ok (some bytesWritten) [] else .writing buf buflen bytesWritten

/-- No result is a failed assertion. -/
def enter : Request → Option Call
  | .write buf blocking =>
    if rb.bufferSize ≠ 0 ∧ atomicSize < rb.bufferSize.toNat then
      some (if blocking then writeTop buf buf.length 0 else .writingOnce buf)
    else none
  | .read nbytes blocking => some (.reading nbytes blocking)

def writeTest (buf : List UInt8) (buflen bytesWritten : ℕ) : Ring × Call × Bool :=
  if rb.availWrite.toNat < atomicSize then (rb, .writeWaiting buf buflen bytesWritten, false)
  else
    let canWrite := min buf.length rb.availWrite.toNat
    (rb.put buf canWrite, writeTop (buf.drop canWrite) buflen (bytesWritten + canWrite), true)

def writeOnce (buf : List UInt8) (buflen : ℕ) : Ring × Call × Bool :=
  let canWrite := min buflen rb.availWrite.toNat
  if canWrite < atomicSize then (rb, .returned .EAGAIN (some buflen) [], false)
  else (rb.put buf canWrite, .returned .ok (some canWrite) [], true)

def readEnd (nbytes : ℕ) : Ring × Call × Bool :=
  if rb.isEof then ({ rb with isEof := false }, .returned .ok (some 0) [], false)
  else
    let canRead := min nbytes rb.availRead.toNat
    ((rb.get canRead).2, .returned .ok (some canRead) (rb.get canRead).1, true)

def readTest (nbytes : ℕ) (blocking : Bool) : Ring × Call × Bool :=
  if rb.availRead.toNat < atomicSize ∧ ¬ rb.isEof then
    if blocking then (rb, .readWaiting nbytes, false) else (rb, .returned .EAGAIN (some 0) [], false)
  else readEnd rb nbytes

def step (h : Hangup) : Call → Option (Ring × Call × Bool)
  | .writing buf buflen bytesWritten => some <|
    if h.Ends then (rb, .returned (.hangup h.ret) (some (h.nbytes.getD buflen)) [], false)
    else writeTest atomicSize rb buf (h.nbytes.getD buflen) bytesWritten
  | .writingOnce buf => some <|
    if h.Ends then (rb, .returned (.hangup h.ret) (some (h.nbytes.getD buf.length)) [], false)
    else writeOnce atomicSize rb buf (h.nbytes.getD buf.length)
  | .reading nbytes blocking =>
    -- the macro returns from the function itself: nothing is stored
    if h.Ends then some (rb, .returned (.hangup h.ret) none [], false)
    else if atomicSize < rb.bufferSize.toNat then
      some (readTest atomicSize rb (h.nbytes.getD nbytes) blocking)
    else none
  | _ => none

def wake (signal : Bool) (h : Hangup) : Call → Option (Ring × Call × Bool)
  | .writeWaiting buf buflen bytesWritten => some <|
    if signal then
      (rb, .returned (if bytesWritten = 0 then .EINTR else .ok) (some bytesWritten) [], false)
    else if h.Ends then (rb, .returned (.hangup h.ret) (some (h.nbytes.getD buflen)) [], false)
    else writeTest atomicSize rb buf (h.nbytes.getD buflen) bytesWritten
  | .readWaiting nbytes => some <|
    if h.Ends then (rb, .returned (.hangup h.ret) none [], false)
    else if rb.isEof then readEnd rb (h.nbytes.getD nbytes)
    else if signal then (rb, .returned .EINTR (some 0) [], false)
    else readTest atomicSize rb (h.nbytes.getD nbytes) true
  | _ => none

def complete : ℕ → Ring → Call → Option (Ring × Ret × Option ℕ × List UInt8)
  | _, rb, .returned ret stored dst => some (rb, ret, stored, dst)
  | 0, _, _ => none
  | fuel + 1, rb, call => (step atomicSize rb noHangup call).bind fun r => complete fuel r.1 r.2.1

end Steps

structure Valid (rb : Ring) : Prop where
  power : ∃ k < 64, rb.bufferSize.toNat = 2 ^ k
  bounded : rb.availRead.toNat ≤ rb.bufferSize.toNat

def contents (rb : Ring) : List UInt8 :=
  (List.range rb.availRead.toNat).map fun i =>
    rb.buffer ((rb.readIndex.toNat + i) % rb.bufferSize.toNat)

variable {i : ℕ}

theorem mod_add {n a : ℕ} (ha : a < n) (hi : i ≤ n) :
    (a + i) % n = if a + i < n then a + i else a + i - n := by
  split_ifs with h
  · exact Nat.mod_eq_of_lt h
  · rw [Nat.mod_eq_sub_mod (by omega), Nat.mod_eq_of_lt (by omega)]

theorem kmemcpy_eq {buffer : ℕ → UInt8} {off : ℕ} {bytes : List UInt8} :
    kmemcpy buffer off bytes i =
      if off ≤ i ∧ i < off + bytes.length then bytes.getD (i - off) 0 else buffer i := by
  unfold kmemcpy
  by_cases hof : off ≤ i
  · by_cases hlt : i < off + bytes.length
    · rw [if_pos hof, if_pos ⟨hof, hlt⟩, getD_eq_getElem _ _ (by omega),
        getD_eq_getElem _ _ (by omega)]
    · rw [if_pos hof, if_neg (by omega), getD_eq_default _ _ (by omega)]
  · rw [if_neg hof, if_neg (by omega)]

section Valid

variable {rb : Ring}

theorem Valid.pos (h : Valid rb) : 0 < rb.bufferSize.toNat := by
  obtain ⟨k, -, hk⟩ := h.power
  rw [hk]
  exact Nat.two_pow_pos k

theorem kmodFast_toNat {x size : BitVec 64} (h : ∃ k < 64, size.toNat = 2 ^ k) :
    (kmodFast x size).toNat = x.toNat % size.toNat := by
  obtain ⟨k, hk, hsz⟩ := h
  have hps := Nat.two_pow_pos k
  have hon : (size - 1).toNat = 2 ^ k - 1 := by
    rw [BitVec.toNat_sub_of_le (by rw [BitVec.le_def]; simp; omega), hsz]
    rfl
  rw [kmodFast, BitVec.toNat_and, hon, hsz, Nat.and_two_pow_sub_one_eq_mod]

theorem writeIndex_mod (h : Valid rb) : rb.writeIndex.toNat % rb.bufferSize.toNat =
    (rb.readIndex.toNat % rb.bufferSize.toNat + rb.availRead.toNat) % rb.bufferSize.toNat := by
  obtain ⟨k, hk, hsz⟩ := h.power
  have hsm : rb.readIndex + rb.availRead = rb.writeIndex := by
    rw [Ring.availRead, BitVec.add_comm, BitVec.sub_add_cancel]
  have hdv : rb.bufferSize.toNat ∣ 2 ^ 64 := by
    rw [hsz]
    exact Nat.pow_dvd_pow 2 hk.le
  rw [Nat.mod_add_mod, ← hsm, toNat_add, Nat.mod_mod_of_dvd _ hdv]

theorem availWrite_toNat (h : rb.availRead.toNat ≤ rb.bufferSize.toNat) :
    rb.availWrite.toNat = rb.bufferSize.toNat - rb.availRead.toNat :=
  BitVec.toNat_sub_of_le (BitVec.le_def.mpr h)

variable {buf : List UInt8} {n : ℕ}

theorem buffer_put (h : ∃ k < 64, rb.bufferSize.toNat = 2 ^ k) {p : ℕ}
    (hn : n ≤ buf.length) (hsz : n ≤ rb.bufferSize.toNat) (hp : p < rb.bufferSize.toNat) :
    (rb.put buf n).buffer p =
      let j := if rb.writeIndex.toNat % rb.bufferSize.toNat ≤ p then
          p - rb.writeIndex.toNat % rb.bufferSize.toNat
        else p + rb.bufferSize.toNat - rb.writeIndex.toNat % rb.bufferSize.toNat
      if j < n then buf.getD j 0 else rb.buffer p := by
  have hid : rb.writeIndex.toNat % rb.bufferSize.toNat < rb.bufferSize.toNat :=
    Nat.mod_lt _ (by omega)
  simp only [Ring.put, kmodFast_toNat h]
  generalize rb.writeIndex.toNat % rb.bufferSize.toNat = idx at *
  have hfs : (buf.take (min n (rb.bufferSize.toNat - idx))).length =
      min n (rb.bufferSize.toNat - idx) := by
    rw [length_take]
    omega
  have hsc : ((buf.drop (rb.bufferSize.toNat - idx)).take
      (n - (rb.bufferSize.toNat - idx))).length = n - (rb.bufferSize.toNat - idx) := by
    rw [length_take, length_drop]
    omega
  by_cases hle : idx ≤ p
  · have hms : ¬ (0 ≤ p ∧ p < 0 + (n - (rb.bufferSize.toNat - idx))) := by omega
    have hcp : kmemcpy rb.buffer idx (buf.take (min n (rb.bufferSize.toNat - idx))) p =
        if p - idx < n then buf.getD (p - idx) 0 else rb.buffer p := by
      rw [kmemcpy_eq, hfs]
      by_cases hj : p - idx < n
      · rw [if_pos (by omega), if_pos hj, getD_eq_getElem?_getD, getD_eq_getElem?_getD,
          List.getElem?_take_of_lt (by omega)]
      · rw [if_neg (by omega), if_neg hj]
    simp only [if_pos hle, ← hcp]
    split_ifs with hwr
    · rw [kmemcpy_eq, hsc, if_neg hms]
    · rfl
  · have hms : kmemcpy rb.buffer idx (buf.take (min n (rb.bufferSize.toNat - idx))) p =
        rb.buffer p := by
      rw [kmemcpy_eq, if_neg (by omega)]
    simp only [if_neg hle]
    by_cases hj : p + rb.bufferSize.toNat - idx < n
    · rw [if_pos (by omega), if_pos hj, kmemcpy_eq, hsc, if_pos (by omega),
        getD_eq_getElem?_getD, getD_eq_getElem?_getD, List.getElem?_take_of_lt (by omega),
        List.getElem?_drop]
      congr 2
      omega
    · split_ifs with hwr
      · rw [kmemcpy_eq, hsc, if_neg (by omega), hms]
      · exact hms

theorem availRead_put (rb : Ring) (buf : List UInt8) (n : ℕ) :
    (rb.put buf n).availRead = rb.availRead + ofNat 64 n := by
  change rb.writeIndex + ofNat 64 n - rb.readIndex =
    rb.writeIndex - rb.readIndex + ofNat 64 n
  rw [BitVec.sub_eq_add_neg, BitVec.sub_eq_add_neg, BitVec.add_assoc,
    BitVec.add_comm (ofNat 64 n), ← BitVec.add_assoc]

theorem availRead_put_toNat (h : rb.availRead.toNat ≤ rb.bufferSize.toNat)
    (hn : n ≤ rb.availWrite.toNat) :
    (rb.put buf n).availRead.toNat = rb.availRead.toNat + n := by
  rw [availWrite_toNat h] at hn
  rw [availRead_put, toNat_add, toNat_ofNat, Nat.add_mod_mod,
    Nat.mod_eq_of_lt (by omega)]

theorem Valid.put (h : Valid rb) (hn : n ≤ rb.availWrite.toNat) (buf : List UInt8) :
    Valid (rb.put buf n) := by
  refine ⟨h.power, ?_⟩
  have hbd := h.bounded
  rw [availRead_put_toNat hbd hn]
  rw [availWrite_toNat hbd] at hn
  change _ ≤ rb.bufferSize.toNat
  omega

theorem contents_put (h : Valid rb) (hln : n ≤ buf.length)
    (hn : n ≤ rb.availWrite.toNat) : contents (rb.put buf n) = contents rb ++ buf.take n := by
  have hmd := writeIndex_mod h
  have hbd := h.bounded
  have hps := h.pos
  have hrd : rb.readIndex.toNat % rb.bufferSize.toNat < rb.bufferSize.toNat := Nat.mod_lt _ hps
  have hn' := hn
  rw [availWrite_toNat hbd] at hn'
  rw [mod_add hrd hbd] at hmd
  apply ext_getElem
  · simp [contents, availRead_put_toNat hbd hn, hln]
  · intro i hi _
    have hlt : i < rb.availRead.toNat + n := by
      rwa [contents, length_map, length_range, availRead_put_toNat hbd hn] at hi
    have hpl := mod_add hrd (by omega : i ≤ rb.bufferSize.toNat)
    rw [getElem_append]
    simp only [contents, getElem_map, getElem_range, length_map, length_range]
    change (rb.put buf n).buffer ((rb.readIndex.toNat + i) % rb.bufferSize.toNat) = _
    rw [buffer_put h.power hln (by omega) (Nat.mod_lt _ hps)]
    rw [Nat.mod_add_mod] at hpl
    simp only [hpl, hmd]
    by_cases hold : i < rb.availRead.toNat
    · rw [dif_pos hold, if_neg]
      split_ifs <;> omega
    · rw [dif_neg hold, getElem_take, if_pos (by split_ifs <;> omega), getD_eq_getElem _ _
        (by split_ifs <;> omega)]
      congr 1
      split_ifs <;> omega

theorem availRead_get_toNat (hn : n ≤ rb.availRead.toNat) :
    (rb.get n).2.availRead.toNat = rb.availRead.toNat - n := by
  have hsp : (rb.get n).2.availRead = rb.availRead - ofNat 64 n := by
    change rb.writeIndex - (rb.readIndex + ofNat 64 n) =
      rb.writeIndex - rb.readIndex - ofNat 64 n
    rw [BitVec.sub_sub]
  have hnt : (ofNat 64 n).toNat = n := by
    rw [toNat_ofNat, Nat.mod_eq_of_lt (by omega)]
  rw [hsp, BitVec.toNat_sub_of_le (by rw [BitVec.le_def, hnt]; exact hn), hnt]

theorem Valid.get (h : Valid rb) (hn : n ≤ rb.availRead.toNat) : Valid (rb.get n).2 := by
  refine ⟨h.power, ?_⟩
  have hbd := h.bounded
  rw [availRead_get_toNat hn]
  change _ ≤ rb.bufferSize.toNat
  omega

theorem contents_get (h : Valid rb) (hn : n ≤ rb.availRead.toNat) :
    contents rb = (rb.get n).1 ++ contents (rb.get n).2 := by
  have hbd := h.bounded
  have hps := h.pos
  have hrd : rb.readIndex.toNat % rb.bufferSize.toNat < rb.bufferSize.toNat := Nat.mod_lt _ hps
  have hby : (rb.get n).1 = (contents rb).take n := by
    simp only [Ring.get, kmodFast_toNat h.power]
    apply ext_getElem
    · simp [contents]
      omega
    · intro i hi _
      have hlt : i < n := by
        rw [length_append, length_map, length_map, length_range', length_range] at hi
        omega
      have hpl := mod_add hrd (by omega : i ≤ rb.bufferSize.toNat)
      rw [Nat.mod_add_mod] at hpl
      simp only [contents, getElem_append, getElem_take, getElem_map,
        getElem_range', getElem_range, length_map, length_range', hpl]
      split_ifs <;> first | omega | (congr 1; omega)
  have hrs : contents (rb.get n).2 = (contents rb).drop n := by
    obtain ⟨k, hk, hsz⟩ := h.power
    have hdv : rb.bufferSize.toNat ∣ 2 ^ 64 := by
      rw [hsz]
      exact Nat.pow_dvd_pow 2 hk.le
    have hix : (rb.readIndex + ofNat 64 n).toNat % rb.bufferSize.toNat =
        (rb.readIndex.toNat + n) % rb.bufferSize.toNat := by
      rw [toNat_add, toNat_ofNat, Nat.add_mod_mod, Nat.mod_mod_of_dvd _ hdv]
    apply ext_getElem
    · simp [contents, availRead_get_toNat hn]
    · intro i _ _
      simp only [contents, getElem_map, getElem_range, getElem_drop]
      change rb.buffer (((rb.readIndex + ofNat 64 n).toNat + i) % rb.bufferSize.toNat) = _
      rw [← Nat.mod_add_mod, hix, Nat.mod_add_mod, Nat.add_assoc]
  rw [hby, hrs, take_append_drop]

end Valid

section Complete

variable {atomicSize fuel : ℕ} {rb rb' : Ring} {ret : Ret} {stored : Option ℕ}
  {buf dst : List UInt8} {buflen bytesWritten nbytes : ℕ} {blocking : Bool}

structure Effect (rb rb' : Ring) (added taken : List UInt8) : Prop where
  valid : Valid rb'
  size : rb'.bufferSize = rb.bufferSize
  isEof : rb'.isEof = rb.isEof
  moved : contents rb ++ added = taken ++ contents rb'

theorem Effect.refl (h : Valid rb) : Effect rb rb [] [] := ⟨h, rfl, rfl, by simp⟩

theorem complete_returned :
    complete atomicSize fuel rb (.returned ret stored dst) = some (rb, ret, stored, dst) := by
  cases fuel <;> rfl

theorem complete_writeWaiting :
    complete atomicSize fuel rb (.writeWaiting buf buflen bytesWritten) = none := by
  cases fuel <;> rfl

theorem complete_readWaiting : complete atomicSize fuel rb (.readWaiting nbytes) = none := by
  cases fuel <;> rfl

theorem complete_writing : complete atomicSize (fuel + 1) rb (.writing buf buflen bytesWritten) =
    complete atomicSize fuel (writeTest atomicSize rb buf buflen bytesWritten).1
      (writeTest atomicSize rb buf buflen bytesWritten).2.1 := rfl

theorem complete_once : complete atomicSize (fuel + 1) rb (.writingOnce buf) =
    complete atomicSize fuel (writeOnce atomicSize rb buf buf.length).1
      (writeOnce atomicSize rb buf buf.length).2.1 := rfl

theorem complete_read (hsz : atomicSize < rb.bufferSize.toNat) :
    complete atomicSize (fuel + 1) rb (.reading nbytes blocking) =
      complete atomicSize fuel (readTest atomicSize rb nbytes blocking).1
        (readTest atomicSize rb nbytes blocking).2.1 := by
  change Option.bind (if atomicSize < rb.bufferSize.toNat then _ else _) _ = _
  rw [if_pos hsz]
  rfl

theorem effect_put (h : Valid rb) {n : ℕ} (hln : n ≤ buf.length) (hn : n ≤ rb.availWrite.toNat) :
    Effect rb (rb.put buf n) (buf.take n) [] :=
  ⟨h.put hn buf, rfl, rfl, (contents_put h hln hn).symm⟩

theorem complete_writeTop (h : Valid rb)
    (hc : complete atomicSize fuel rb (writeTop buf buflen bytesWritten) =
      some (rb', ret, stored, dst)) :
    ret = .ok ∧ stored = some (bytesWritten + buf.length) ∧ Effect rb rb' buf [] := by
  induction fuel generalizing rb buf bytesWritten with
  | zero =>
    rw [writeTop] at hc
    split_ifs at hc with hbf
    · cases hc
      subst hbf
      exact ⟨rfl, rfl, .refl h⟩
    · cases hc
  | succ fuel ih =>
    rw [writeTop] at hc
    split_ifs at hc with hbf
    · cases hc
      subst hbf
      exact ⟨rfl, rfl, .refl h⟩
    · rw [complete_writing, writeTest] at hc
      split_ifs at hc with hrm
      · rw [complete_writeWaiting] at hc
        cases hc
      · have hln := min_le_left buf.length rb.availWrite.toNat
        have hpt := effect_put h hln (min_le_right _ _)
        obtain ⟨hrt, hst, hef⟩ := ih hpt.valid hc
        rw [length_drop] at hst
        refine ⟨hrt, hst.trans (congrArg some (by omega)), hef.valid,
          hef.size.trans hpt.size, hef.isEof.trans hpt.isEof, ?_⟩
        rw [← hef.moved, contents_put h hln (min_le_right _ _), append_assoc, take_append_drop]

theorem complete_writingOnce (h : Valid rb)
    (hc : complete atomicSize fuel rb (.writingOnce buf) = some (rb', ret, stored, dst)) :
    Effect rb rb' (if ret = .ok then buf.take (stored.getD 0) else []) [] := by
  cases fuel with
  | zero => cases hc
  | succ fuel =>
    rw [complete_once, writeOnce] at hc
    split_ifs at hc
    · rw [complete_returned] at hc
      cases hc
      exact .refl h
    · rw [complete_returned] at hc
      cases hc
      exact effect_put h (min_le_left _ _) (min_le_right _ _)

theorem complete_reading (h : Valid rb) (heof : rb.isEof = false)
    (hsz : atomicSize < rb.bufferSize.toNat)
    (hc : complete atomicSize fuel rb (.reading nbytes blocking) = some (rb', ret, stored, dst)) :
    Effect rb rb' [] dst := by
  cases fuel with
  | zero => cases hc
  | succ fuel =>
    rw [complete_read hsz, readTest] at hc
    split_ifs at hc
    · rw [complete_readWaiting] at hc
      cases hc
    · rw [complete_returned] at hc
      cases hc
      exact .refl h
    · rw [readEnd, if_neg (by simp [heof]), complete_returned] at hc
      cases hc
      have hn := min_le_right nbytes rb.availRead.toNat
      exact ⟨h.get hn, rfl, rfl, by rw [append_nil]; exact contents_get h hn⟩

end Complete

structure Log where
  rb : Ring
  appended : List UInt8
  taken : List UInt8

structure Issue where
  request : Request
  atomicSize : ℕ
  fuel : ℕ

/-- There is no next state if the call has to wait. -/
def next (s : Log) (e : Issue) : Option Log :=
  (enter e.atomicSize s.rb e.request).bind fun call =>
    (complete e.atomicSize e.fuel s.rb call).map fun (rb, ret, stored, dst) =>
      match e.request with
      | .write buf _ =>
        ⟨rb, s.appended ++ if ret = .ok then buf.take (stored.getD 0) else [], s.taken⟩
      | .read _ _ => ⟨rb, s.appended, s.taken ++ dst⟩

def Admissible (s : Log) (e : Issue) : Prop :=
  1 ≤ e.atomicSize ∧ e.atomicSize < s.rb.bufferSize.toNat
  deriving Decidable

structure Invariant (size : BitVec 64) (s : Log) : Prop where
  valid : Valid s.rb
  size_eq : s.rb.bufferSize = size
  isEof : s.rb.isEof = false
  appended : s.appended = s.taken ++ contents s.rb

theorem Invariant.of_effect {size : BitVec 64} {s : Log} {rb : Ring} {added taken : List UInt8}
    (h : Invariant size s) (he : Effect s.rb rb added taken) :
    Invariant size ⟨rb, s.appended ++ added, s.taken ++ taken⟩ := by
  refine ⟨he.valid, he.size.trans h.size_eq, he.isEof.trans h.isEof, ?_⟩
  rw [h.appended, append_assoc, he.moved, append_assoc]

theorem Invariant.next {size : BitVec 64} {s s' : Log} {e : Issue} (h : Invariant size s)
    (hok : Admissible s e) (hn : next s e = some s') : Invariant size s' := by
  obtain ⟨call, hcl, hn⟩ := Option.bind_eq_some_iff.mp hn
  obtain ⟨⟨rb, ret, stored, dst⟩, hc, rfl⟩ := Option.map_eq_some_iff.mp hn
  cases hrq : e.request with
  | write buf blocking =>
    rw [hrq, enter] at hcl
    split_ifs at hcl with hass hblocking
    · cases hcl
      obtain ⟨rfl, rfl, hef⟩ := complete_writeTop h.valid hc
      simpa [hrq] using h.of_effect hef
    · cases hcl
      simpa [hrq] using h.of_effect (complete_writingOnce h.valid hc)
  | read nbytes blocking =>
    rw [hrq, enter] at hcl
    cases hcl
    simpa [hrq] using h.of_effect (complete_reading h.valid h.isEof hok.2 hc)

/-- A ring whose size is a power of two is a bounded FIFO, wherever its indices start. -/
theorem ring_fifo (rb : Ring) (hsize : ∃ k < 64, rb.bufferSize.toNat = 2 ^ k)
    (hindex : rb.readIndex = rb.writeIndex) (heof : rb.isEof = false) {s : Log}
    (h : Runs.Reaches next Admissible ⟨rb, [], []⟩ s) :
    s.rb.availRead.toNat ≤ rb.bufferSize.toNat ∧ s.taken <+: s.appended ∧
      contents s.rb = s.appended.drop s.taken.length := by
  have hem : rb.availRead.toNat = 0 := by
    rw [Ring.availRead, hindex, BitVec.sub_self]
    rfl
  have hiv : Invariant rb.bufferSize s := by
    refine h.invariant (Invariant rb.bufferSize) ?_ fun s e s' hs hok hn => hs.next hok hn
    refine ⟨⟨hsize, ?_⟩, rfl, heof, ?_⟩
    · change rb.availRead.toNat ≤ _
      omega
    · rw [contents, hem]
      rfl
  refine ⟨hiv.size_eq ▸ hiv.valid.bounded, ?_, ?_⟩
  · rw [hiv.appended]
    exact prefix_append _ _
  · rw [hiv.appended, drop_left]

def sampleRing : Ring := ⟨fun _ => 0, 8, 0xfffffffffffffffe, 0xfffffffffffffffe, false⟩

theorem ring_fifo_wraps : ∃ s, Runs.Reaches next Admissible ⟨sampleRing, [], []⟩ s ∧
    s.taken = [1, 2, 3] ∧ s.rb.availRead.toNat ≤ sampleRing.bufferSize.toNat ∧
      s.taken <+: s.appended ∧ contents s.rb = s.appended.drop s.taken.length := by
  have hrn : (Runs.run next Admissible ⟨sampleRing, [], []⟩ [⟨.write [1, 2, 3, 4, 5] true, 1, 2⟩,
      ⟨.read 3 false, 1, 2⟩]).map Log.taken = some [1, 2, 3] := by decide +kernel
  obtain ⟨s, hs, htk⟩ := Option.map_eq_some_iff.mp hrn
  have hrc := Runs.run_reaches hs
  exact ⟨s, hrc, htk, ring_fifo sampleRing ⟨3, by decide, rfl⟩ rfl rfl hrc⟩

end RingBuffer
