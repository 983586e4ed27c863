import Mathlib.Data.List.GetD
import SalernosKernel.Runs
import SalernosKernel.Signals

/-! # Terminals

The line discipline of `com/io/tty.c`. A flag of `termios` is whether its bit is set. The callers
hold no lock; one character is processed at a time. -/
namespace Tty

open Function
open List Signals

abbrev Text := List (BitVec 8)

def nl : BitVec 8 := 10
def cr : BitVec 8 := 13

section Echo

/-- What the callback returns and stores through its `bytes_written`, by all that was passed to it
so far, the text of this call last. -/
abbrev Callback := List Text → ℤ × ℕ

/-- What `com_io_tty_text_backend_echo` returns, stores and has passed on. -/
structure Echoed where
  ret : ℤ
  bytesWritten : ℕ
  calls : List Text

variable (echo : Callback)

def noNewline (buf : Text) (calls : List Text) : Echoed :=
  ⟨(echo (calls ++ [buf])).1, (echo (calls ++ [buf])).2, calls ++ [buf]⟩

/-- Each round takes a byte at least, so as many rounds as there are bytes are enough. -/
def echoLines : ℕ → Text → ℕ → List Text → Echoed
  | 0, _, count, calls => ⟨0, count, calls⟩
  | rounds + 1, buf, count, calls =>
    if buf = [] then ⟨0, count, calls⟩
    else
      match buf.idxOf? nl with
      | none => noNewline echo buf calls
      | some len =>
        let calls := calls ++ [buf.take len]
        let count := count + (echo calls).2 + 1
        if (echo calls).1 ≠ 0 then ⟨(echo calls).1, count, calls⟩
        else
          let calls := calls ++ [[cr, nl]]
          if (echo calls).1 ≠ 0 then ⟨(echo calls).1, count, calls⟩
          else echoLines rounds (buf.drop (len + 1)) count calls

def comIoTtyTextBackendEcho (opost onlcr : Bool) (buf : Text) : Echoed :=
  if opost ∨ onlcr then echoLines echo buf.length buf 0 [] else noNewline echo buf []

def Complete : Prop := ∀ calls text, echo (calls ++ [text]) = (0, text.length)

def expand (buf : Text) : Text := buf.flatMap fun c => if c = nl then [cr, nl] else [c]

variable {echo} {rounds count len : ℕ} {buf : Text} {calls : List Text}

theorem expand_of_notMem (h : nl ∉ buf) : expand buf = buf := by
  induction buf with
  | nil => rfl
  | cons c buf ih =>
    rw [mem_cons, not_or] at h
    rw [expand, flatMap_cons, if_neg (Ne.symm h.1)]
    exact congrArg (c :: ·) (ih h.2)

theorem split_newline (h : buf.idxOf? nl = some len) :
    buf = buf.take len ++ nl :: buf.drop (len + 1) ∧ nl ∉ buf.take len := by
  obtain ⟨hlt, heq, hne⟩ := findIdx?_eq_some_iff_getElem.mp h
  refine ⟨?_, ?_⟩
  · conv_lhs => rw [← take_append_drop len buf, drop_eq_getElem_cons hlt]
    rw [eq_of_beq heq]
  · intro hme
    obtain ⟨i, hi, hgt⟩ := mem_take_iff_getElem.mp hme
    exact hne i (by omega) (by rw [hgt]; exact beq_self_eq_true nl)

/-- What the loop does with a callback that takes everything: without a newline at its end, the
count is that of the last call. -/
structure Emits (buf : Text) (count : ℕ) (calls : List Text) (r : Echoed) : Prop where
  text : r.calls.flatten = calls.flatten ++ expand buf
  ret : r.ret = 0
  ended : buf = [] ∨ buf.getLast? = some nl → r.bytesWritten = count + buf.length
  single : nl ∉ buf → buf ≠ [] → r.bytesWritten = buf.length
  lost : nl ∈ buf → buf.getLast? ≠ some nl → r.bytesWritten < buf.length

theorem emits_noNewline (hec : Complete echo) (hnt : nl ∉ buf) (hni : buf ≠ []) :
    Emits buf count calls (noNewline echo buf calls) where
  text := by simp [noNewline, expand_of_notMem hnt]
  ret := by rw [noNewline, hec]
  ended := by
    rintro (h | h)
    · exact absurd h hni
    · exact absurd (mem_of_getLast? h) hnt
  single := by
    intros
    rw [noNewline, hec]
  lost h := absurd h hnt

theorem Emits.line {seg rest : Text} {r : Echoed} (hsg : nl ∉ seg)
    (h : Emits rest (count + seg.length + 1) (calls ++ [seg] ++ [[cr, nl]]) r) :
    Emits (seg ++ nl :: rest) count calls r := by
  have hls : (seg ++ nl :: rest).getLast? = if rest = [] then some nl else rest.getLast? := by
    cases rest <;> simp [getLast?_append, getLast?_cons]
  have hln : (seg ++ nl :: rest).length = seg.length + rest.length + 1 := by
    simp only [length_append, length_cons, Nat.add_assoc]
  refine ⟨?_, h.ret, fun hen => ?_, fun hnt => ?_, fun _ hne => ?_⟩
  · rw [h.text, expand, expand, flatMap_append, flatMap_cons, if_pos rfl]
    have := expand_of_notMem hsg
    rw [expand] at this
    simp [this]
  · have hrs : rest = [] ∨ rest.getLast? = some nl := by
      rw [hls] at hen
      by_cases hni : rest = []
      · exact .inl hni
      · rw [if_neg hni] at hen
        exact .inr (hen.resolve_left (by simp))
    rw [h.ended hrs, hln]
    omega
  · simp at hnt
  · have hni : rest ≠ [] := by
      rintro rfl
      exact hne (by rw [hls, if_pos rfl])
    rw [hls, if_neg hni] at hne
    by_cases hme : nl ∈ rest
    · exact (h.lost hme hne).trans (by omega)
    · rw [h.single hme hni]
      omega

theorem emits_nil : Emits [] count calls ⟨0, count, calls⟩ :=
  ⟨by simp [expand], rfl, fun _ => rfl, fun _ h => absurd rfl h, by simp⟩

theorem emits_echoLines (hec : Complete echo) (hln : buf.length ≤ rounds) :
    Emits buf count calls (echoLines echo rounds buf count calls) := by
  induction rounds generalizing buf count calls with
  | zero =>
    obtain rfl := length_eq_zero_iff.mp (Nat.le_zero.mp hln)
    exact emits_nil
  | succ rounds ih =>
    rw [echoLines]
    by_cases hni : buf = []
    · rw [if_pos hni, hni]
      exact emits_nil
    rw [if_neg hni]
    cases hid : buf.idxOf? nl with
    | none => exact emits_noNewline hec (idxOf?_eq_none_iff.mp hid) hni
    | some len =>
      obtain ⟨heq, hnt⟩ := split_newline hid
      have hsz := congrArg length heq
      simp only [length_append, length_cons] at hsz
      rw [heq]
      refine Emits.line hnt ?_
      simp only [← heq, hec calls (buf.take len), hec (calls ++ [buf.take len]) [cr, nl],
        ne_eq, not_true_eq_false, if_false]
      exact ih (by omega)

/-- The text is right; the count is lost where the text goes on behind its last newline. -/
theorem echo_processes_iff (echo : Callback) (hecho : Complete echo) (opost onlcr : Bool)
    (buf : Text) :
    ((comIoTtyTextBackendEcho echo opost onlcr buf).calls.flatten =
        (if opost ∨ onlcr then expand buf else buf) ∧
      (comIoTtyTextBackendEcho echo opost onlcr buf).ret = 0 ∧
      (comIoTtyTextBackendEcho echo opost onlcr buf).bytesWritten = buf.length) ↔
      ((opost ∨ onlcr) → nl ∈ buf → buf.getLast? = some nl) := by
  unfold comIoTtyTextBackendEcho
  by_cases hfl : opost = true ∨ onlcr = true
  · have h : Emits buf 0 [] _ := emits_echoLines hecho (le_refl buf.length)
    rw [if_pos hfl, if_pos hfl]
    refine ⟨fun hal _ hme => ?_, fun hen => ⟨h.text, h.ret, ?_⟩⟩
    · by_contra hne
      exact (h.lost hme hne).ne hal.2.2
    · by_cases hme : nl ∈ buf
      · rw [h.ended (.inr (hen hfl hme)), Nat.zero_add]
      · by_cases hni : buf = []
        · rw [h.ended (.inl hni), Nat.zero_add]
        · exact h.single hme hni
  · rw [if_neg hfl, if_neg hfl, noNewline, hecho]
    simp [hfl]

def takesAll : Callback := fun calls => (0, (calls.getLastD []).length)

theorem takesAll_complete : Complete takesAll := by
  intro calls text
  simp [takesAll, getLastD_eq_getLast?]

theorem echo_processes_line :
    (comIoTtyTextBackendEcho takesAll true true [97, nl]).bytesWritten = 2 :=
  ((echo_processes_iff takesAll takesAll_complete true true [97, nl]).mpr (by decide)).2.2

/-- Of `a`, newline and `b` one byte is reported. -/
theorem echo_loses_count :
    Complete takesAll ∧ (comIoTtyTextBackendEcho takesAll true true [97, nl, 98]).calls.flatten =
        [97, cr, nl, 98] ∧
      (comIoTtyTextBackendEcho takesAll true true [97, nl, 98]).bytesWritten = 1 :=
  ⟨takesAll_complete, by decide, by decide⟩

end Echo

def COM_IO_TTY_BUF_SZ : ℕ := 1024

inductive Control where
  | intr
  | quit
  | susp
  | eof
  | erase
  | kill
  deriving DecidableEq

structure Termios where
  isig : Bool
  icanon : Bool
  echo : Bool
  echoe : Bool
  echoke : Bool
  igncr : Bool
  icrnl : Bool
  inlcr : Bool
  /-- `c_cc`, promoted to `int`. -/
  cc : Control → ℤ

/-- A call of `com_io_tty_process_char` and what it finds: the result of an echo, by the text and
`canon.index`, that of `kringbuffer_write`, and how many bytes `slave_rb` takes. -/
structure Input where
  termios : Termios
  c : BitVec 8
  echo : Text → ℕ → ℤ
  ret : ℤ
  taken : ℕ

/-- With what was written to `slave_rb`, stored to (by index) and sent so far. -/
structure Backend where
  buffer : ℕ → BitVec 8
  index : ℕ
  isEof : Bool
  written : Text
  stores : List ℕ
  signals : List Signal

def initial : Backend := ⟨fun _ => 0, 0, false, [], [], []⟩

def SIGINT : Signal := ofNumber 2
def SIGQUIT : Signal := ofNumber 3
def SIGTSTP : Signal := ofNumber 20

def signal : Control → Option Signal
  | .intr => some SIGINT
  | .quit => some SIGQUIT
  | .susp => some SIGTSTP
  | _ => none

/-- `^C`, and a `^` with two backslashes. -/
def signalText : Control → Option Text
  | .intr => some [94, 67]
  | .quit => some [94, 92, 92]
  | _ => none

section Model

variable (t : Input)

/-- A `char` is signed. -/
def Is (k : Control) (c : BitVec 8) : Prop := t.termios.cc k = c.toInt
  deriving Decidable

def Sends (k : Control) : Prop := t.termios.isig ∧ (signal k).isSome ∧ Is t k t.c
  deriving Decidable

/-- `sig` and `ret` are set anew by each control character that matches. -/
def sent : Option Signal :=
  if Sends t .susp then signal .susp
  else if Sends t .quit then signal .quit
  else if Sends t .intr then signal .intr
  else none

def sentRet (index : ℕ) : ℤ :=
  let ret k := ((signalText k).map (t.echo · index)).getD 0
  if Sends t .quit then ret .quit else if Sends t .intr then ret .intr else 0

def Ignored : Prop := t.c = cr ∧ t.termios.igncr
  deriving Decidable

/-- The mapping of `c_iflag` behind the test of `IGNCR`. -/
def mapped : BitVec 8 :=
  let c := if t.c = cr ∧ t.termios.icrnl then nl else t.c
  if c = nl ∧ t.termios.inlcr then cr else c

def rubout : Text := [8, 32, 8]

structure Edit where
  handled : Bool
  ret : ℤ
  index : ℕ

def eraseChar (handled : Bool) (index : ℕ) : Edit :=
  if Is t .erase (mapped t) then
    if index = 0 then ⟨true, 0, index⟩
    else if t.termios.echoe ∧ t.echo rubout index ≠ 0 then ⟨handled, t.echo rubout index, index⟩
    else ⟨true, 0, index - 1⟩
  else ⟨handled, 0, index⟩

/-- The loop tests the byte at `index`, which is behind the line. -/
def killLine (buffer : ℕ → BitVec 8) : ℕ → ℤ × ℕ
  | 0 => (0, 0)
  | index + 1 =>
    if buffer (index + 1) = nl then (0, index + 1)
    else if t.termios.echoke ∧ t.echo rubout index ≠ 0 then (t.echo rubout index, index)
    else killLine buffer index

def edit (handled : Bool) (b : Backend) : Edit :=
  let e := eraseChar t (handled || Is t .eof (mapped t)) b.index
  if e.ret ≠ 0 ∨ ¬ Is t .kill (mapped t) then e
  else
    let k := killLine t b.buffer e.index
    if k.1 ≠ 0 then ⟨e.handled, k.1, k.2⟩ else ⟨true, 0, k.2⟩

namespace Backend

variable (b : Backend)

def line : Text := (range b.index).map b.buffer

def write (bytes : Text) : Backend := { b with written := b.written ++ bytes.take t.taken }

/-- Past the end of the buffer lies `canon.index`, and such a store is taken down only. -/
def store (c : BitVec 8) : Backend :=
  { b with
    buffer := update b.buffer b.index c
    index := b.index + 1
    stores := b.stores ++ [b.index] }

def edited (index : ℕ) : Backend :=
  { b with index := index, isEof := b.isEof || (Is t .eof (mapped t) ∧ b.index = 0 : Bool) }

end Backend

def insert (handled : Bool) (ret : ℤ) (b : Backend) : ℤ × Backend :=
  if handled then (ret, b)
  else (if t.termios.echo then t.echo [mapped t] (b.index + 1) else ret, b.store (mapped t))

/-- From the label `end` on. -/
def finish (handled lineDone : Bool) (ret : ℤ) (b : Backend) : ℤ × Backend :=
  let r := insert t handled ret b
  let d :=
    if handled = false ∧ t.termios.echo ∧ r.1 ≠ 0 then r
    else if lineDone then (t.ret, { r.2.write t r.2.line with index := 0 })
    else r
  (d.1, { d.2 with signals := d.2.signals ++ (sent t).toList })

def lineDone : Bool := Is t .eof (mapped t) ∨ mapped t = nl ∨ mapped t = cr

def comIoTtyProcessChar (b : Backend) : ℤ × Backend :=
  if sentRet t b.index ≠ 0 then finish t true false (sentRet t b.index) b
  else if Ignored t then (0, b)
  else if t.termios.icanon then
    let e := edit t (sent t).isSome b
    finish t e.handled (lineDone t) e.ret (b.edited t e.index)
  else finish t true false t.ret (b.write t [mapped t])

end Model

variable {t : Input} {b : Backend} {k : Control} {handled : Bool} {ret : ℤ}

theorem sent_isSome : (sent t).isSome ↔ ∃ k, Sends t k := by
  unfold sent
  constructor
  · intro h
    split_ifs at h with h₁ h₂ h₃
    · exact ⟨_, h₁⟩
    · exact ⟨_, h₂⟩
    · exact ⟨_, h₃⟩
    · cases h
  · rintro ⟨k, hk⟩
    split_ifs with h₁ h₂ h₃
    any_goals rfl
    cases k <;> first | contradiction | cases hk.2.1

theorem sentRet_of_none (h : ¬ (sent t).isSome) (index : ℕ) : sentRet t index = 0 := by
  have hno : ∀ k, ¬ Sends t k := fun k hk => h (sent_isSome.mpr ⟨k, hk⟩)
  rw [sentRet, if_neg (hno _), if_neg (hno _)]

theorem eraseChar_index (index : ℕ) : (eraseChar t handled index).index ≤ index := by
  unfold eraseChar
  split_ifs <;> first | exact le_rfl | exact Nat.sub_le _ _

theorem killLine_index (buffer : ℕ → BitVec 8) (index : ℕ) :
    (killLine t buffer index).2 ≤ index := by
  induction index with
  | zero => exact le_rfl
  | succ index ih =>
    rw [killLine]
    split_ifs
    · exact le_rfl
    · exact Nat.le_succ index
    · exact ih.trans (Nat.le_succ index)

theorem edit_index : (edit t handled b).index ≤ b.index := by
  have h : (eraseChar t (handled || Is t .eof (mapped t)) b.index).index ≤ b.index :=
    eraseChar_index _
  unfold edit
  dsimp only
  split_ifs
  · exact h
  · exact (killLine_index _ _).trans h
  · exact (killLine_index _ _).trans h

theorem edit_handled (h : (handled || Is t .eof (mapped t)) = true) :
    (edit t handled b).handled = true := by
  unfold edit eraseChar
  rw [h]
  dsimp only
  split_ifs <;> rfl

theorem finish_signals {lineDone : Bool} :
    (finish t handled lineDone ret b).2.signals = b.signals ++ (sent t).toList := by
  unfold finish insert Backend.write Backend.store
  dsimp only
  split_ifs <;> rfl

theorem finish_stores {lineDone : Bool} : (finish t handled lineDone ret b).2.stores =
    if handled then b.stores else b.stores ++ [b.index] := by
  unfold finish insert Backend.write Backend.store
  dsimp only
  split_ifs <;> rfl

theorem finish_index {lineDone : Bool} : (finish t handled lineDone ret b).2.index ≤
    if handled then b.index else b.index + 1 := by
  unfold finish insert Backend.write Backend.store
  dsimp only
  split_ifs <;> first | exact le_rfl | exact Nat.zero_le _

theorem finish_handled {lineDone : Bool} :
    (finish t true lineDone ret b).2.line = (if lineDone then [] else b.line) ∧
      (finish t true lineDone ret b).2.written =
        b.written ++ if lineDone then b.line.take t.taken else [] := by
  cases lineDone
  · exact ⟨rfl, (append_nil _).symm⟩
  · exact ⟨rfl, rfl⟩

/-- The signal is sent once, and nothing is written but bytes that were in the line before. -/
def Consumed (t : Input) (k : Control) (b b' : Backend) : Prop :=
  b'.signals = b.signals ++ (signal k).toList ∧ b'.stores = b.stores ∧
    (b'.written = b.written ∨
      t.termios.icanon ∧ ∃ n, b'.written = b.written ++ b.line.take n)

theorem line_edited {n : ℕ} (h : n ≤ b.index) : (b.edited t n).line = b.line.take n := by
  unfold Backend.line Backend.edited
  rw [← map_take, take_range, min_eq_left h]

theorem consumed_iff (hk : Sends t k) (hun : ∀ k', Sends t k' → k' = k) :
    Consumed t k b (comIoTtyProcessChar t b).2 ↔ (∃ text ∈ signalText k, t.echo text b.index ≠ 0) ∨
        ¬ Ignored t ∧ (t.termios.icanon ∨ t.taken = 0) := by
  have hne : ∀ k', k' ≠ k → ¬ Sends t k' := fun k' h hs => h (hun k' hs)
  have hsn : sent t = signal k := by
    unfold sent
    cases k <;> simp_all [Sends, signal]
  have hrt : sentRet t b.index ≠ 0 ↔ ∃ text ∈ signalText k, t.echo text b.index ≠ 0 := by
    unfold sentRet
    cases k <;> simp_all [Sends, signal, signalText]
  obtain ⟨sig, hsi⟩ := Option.isSome_iff_exists.mp hk.2.1
  unfold comIoTtyProcessChar
  rw [← hrt]
  by_cases hf : sentRet t b.index ≠ 0
  · rw [if_pos hf]
    exact iff_of_true ⟨by rw [finish_signals, hsn], finish_stores, .inl
      (finish_handled.2.trans (append_nil _))⟩ (.inl hf)
  rw [if_neg hf, or_iff_right hf]
  by_cases hig : Ignored t
  · rw [if_pos hig]
    exact iff_of_false (fun h => by simpa [hsi] using h.1) (fun h => h.1 hig)
  rw [if_neg hig, and_iff_right hig]
  by_cases hcn : t.termios.icanon = true
  · have hd : (edit t (sent t).isSome b).handled = true :=
      edit_handled (by rw [hsn, hk.2.1, Bool.true_or])
    rw [if_pos hcn]
    dsimp only
    rw [hd]
    refine iff_of_true ⟨by rw [finish_signals, hsn]; rfl, finish_stores, .inr ⟨hcn, ?_⟩⟩
      (.inl hcn)
    rw [finish_handled.2, line_edited edit_index, take_take]
    split_ifs
    · exact ⟨_, rfl⟩
    · exact ⟨0, by simp [Backend.edited]⟩
  · rw [if_neg hcn, or_iff_right hcn]
    have hw : (finish t true false t.ret (b.write t [mapped t])).2.written =
        b.written ++ [mapped t].take t.taken := finish_handled.2.trans (append_nil _)
    constructor
    · rintro ⟨-, -, h | ⟨h, -⟩⟩
      · rw [hw, append_right_eq_self] at h
        simpa using h
      · exact absurd h hcn
    · intro h
      exact ⟨by rw [finish_signals, hsn]; rfl, finish_stores, .inl (by rw [hw, h]; simp)⟩

theorem signal_injective {k' : Control} (h : signal k = signal k') (hk : (signal k).isSome) :
    k' = k := by
  revert h hk
  cases k <;> cases k' <;> decide

/-- When a character that sends a signal does nothing else. -/
theorem signal_chars_consumed_iff (t : Input) (b : Backend) :
    (∀ k, Sends t k → Consumed t k b (comIoTtyProcessChar t b).2) ↔
      ((∃ k, Sends t k) → ∃ k, Sends t k ∧ (∀ k', Sends t k' → k' = k) ∧
        ((∃ text ∈ signalText k, t.echo text b.index ≠ 0) ∨
          ¬ Ignored t ∧ (t.termios.icanon ∨ t.taken = 0))) := by
  constructor
  · rintro h ⟨k, hk⟩
    have hun : ∀ k', Sends t k' → k' = k := by
      intro k' hk'
      have heq := append_cancel_left ((h k hk).1.symm.trans (h k' hk').1)
      refine signal_injective ?_ hk.2.1
      cases hs : signal k <;> cases hs' : signal k' <;> simp_all
    exact ⟨k, hk, hun, (consumed_iff hk hun).mp (h k hk)⟩
  · intro h k hk
    obtain ⟨k', hk', hun, hcd⟩ := h ⟨k, hk⟩
    obtain rfl := hun k hk
    exact (consumed_iff hk hun).mpr hcd

def usual : Control → ℤ
  | .intr => 3
  | .quit => 28
  | .susp => 26
  | .eof => 4
  | .erase => 127
  | .kill => 21

def typed (icanon : Bool) (c : BitVec 8) : Input :=
  ⟨⟨true, icanon, true, true, true, false, true, false, usual⟩, c, fun _ _ => 0, 0, 1024⟩

/-- In raw mode the interrupt character is read as well. -/
theorem signal_char_written_raw : Sends (typed false 3) .intr ∧
      (comIoTtyProcessChar (typed false 3) initial).2.signals = [SIGINT] ∧
      (comIoTtyProcessChar (typed false 3) initial).2.written = [3] := by
  decide

def InBounds (b : Backend) : Prop :=
  b.index ≤ COM_IO_TTY_BUF_SZ ∧ ∀ i ∈ b.stores, i < COM_IO_TTY_BUF_SZ

/-- The line has room, or the character is not put into it. -/
def Fits (t : Input) (b : Backend) : Prop :=
  b.index < COM_IO_TTY_BUF_SZ ∨ (∃ k, Sends t k) ∨ Ignored t ∨ ¬ t.termios.icanon ∨
    Is t .eof (mapped t) ∨
    if Is t .erase (mapped t) then t.termios.echoe → t.echo rubout b.index = 0
    else Is t .kill (mapped t)

theorem InBounds.finish_iff {lineDone : Bool} (h : InBounds b) :
    InBounds (finish t handled lineDone ret b).2 ↔
      handled = true ∨ b.index < COM_IO_TTY_BUF_SZ := by
  cases handled with
  | true => exact iff_of_true ⟨finish_index.trans h.1, by rw [finish_stores]; exact h.2⟩ (.inl rfl)
  | false =>
    rw [or_iff_right Bool.false_ne_true]
    constructor
    · intro h'
      refine h'.2 b.index ?_
      rw [finish_stores]
      exact mem_append_right _ (mem_singleton_self _)
    · intro hlt
      refine ⟨finish_index.trans hlt, fun i hi => ?_⟩
      rw [finish_stores] at hi
      rcases mem_append.mp hi with hi | hi
      · exact h.2 i hi
      · exact mem_singleton.mp hi ▸ hlt

theorem InBounds.edited (h : InBounds b) : InBounds (b.edited t (edit t handled b).index) :=
  ⟨edit_index.trans h.1, h.2⟩

theorem edit_full (hps : b.index ≠ 0) :
    ((edit t false b).handled = true ∨ (edit t false b).index < b.index) ↔ (Is t .eof (mapped t) ∨
        if Is t .erase (mapped t) then t.termios.echoe → t.echo rubout b.index = 0
        else Is t .kill (mapped t)) := by
  by_cases hef : Is t .eof (mapped t)
  · exact iff_of_true (.inl (edit_handled (by simp [hef]))) (.inl hef)
  rw [or_iff_right hef]
  unfold edit
  simp only [hef, decide_false, Bool.or_false]
  by_cases her : Is t .erase (mapped t)
  · by_cases hf : t.termios.echoe ∧ t.echo rubout b.index ≠ 0
    · simp [eraseChar, her, hps, hf]
    · have hok : t.termios.echoe → t.echo rubout b.index = 0 := by simpa using hf
      simp only [eraseChar, if_pos her, if_neg hps, if_neg hf]
      refine iff_of_true (.inl ?_) hok
      split_ifs <;> rfl
  · simp only [eraseChar, if_neg her, ne_eq, not_true_eq_false, false_or]
    by_cases hkl : Is t .kill (mapped t)
    · obtain ⟨n, hn⟩ := Nat.exists_eq_succ_of_ne_zero hps
      rw [if_neg (not_not.mpr hkl)]
      refine iff_of_true ?_ hkl
      by_cases hrt : (killLine t b.buffer b.index).1 = 0
      · simp [hrt]
      · refine .inr ?_
        rw [hn, killLine] at hrt ⊢
        split_ifs at hrt ⊢
        · exact absurd rfl hrt
        · exact Nat.lt_succ_self n
        · exact (killLine_index _ n).trans_lt (Nat.lt_succ_self n)
    · simp [hkl]

theorem InBounds.step_iff (h : InBounds b) : InBounds (comIoTtyProcessChar t b).2 ↔ Fits t b := by
  unfold comIoTtyProcessChar
  by_cases hs : (sent t).isSome
  · refine iff_of_true ?_ (.inr (.inl (sent_isSome.mp hs)))
    have hd : (edit t (sent t).isSome b).handled = true := edit_handled (by rw [hs, Bool.true_or])
    split_ifs
    · exact h.finish_iff.mpr (.inl rfl)
    · exact h
    · exact h.edited.finish_iff.mpr (.inl hd)
    · exact (InBounds.finish_iff (b := b.write t _) h).mpr (.inl rfl)
  rw [if_neg (not_not.mpr (sentRet_of_none hs _))]
  have hno : ¬ ∃ k, Sends t k := fun hk => hs (sent_isSome.mpr hk)
  by_cases hig : Ignored t
  · rw [if_pos hig]
    exact iff_of_true h (.inr (.inr (.inl hig)))
  split_ifs with hcn
  · rw [h.edited.finish_iff]
    by_cases hrm : b.index < COM_IO_TTY_BUF_SZ
    · exact iff_of_true (.inr (edit_index.trans_lt hrm)) (.inl hrm)
    · have hfll : b.index = COM_IO_TTY_BUF_SZ := le_antisymm h.1 (Nat.le_of_not_lt hrm)
      rw [Bool.eq_false_iff.mpr hs, ← hfll]
      refine (edit_full (by rw [hfll]; decide)).trans ?_
      simp [Fits, hrm, hno, hig, hcn]
  · refine iff_of_true ?_ (.inr (.inr (.inr (.inl hcn))))
    exact (InBounds.finish_iff (b := b.write t _) h).mpr (.inl rfl)

def next (b : Backend) (t : Input) : Option Backend := some (comIoTtyProcessChar t b).2

/-- A step keeps to the buffer exactly if its character fits, so a run of such steps does. -/
theorem canon_in_bounds (b : Backend) :
    (∀ t, InBounds b → (InBounds (comIoTtyProcessChar t b).2 ↔ Fits t b)) ∧
      (Runs.Reaches next (fun b t => Fits t b) initial b → InBounds b) := by
  refine ⟨fun t h => h.step_iff, fun hrc => hrc.invariant InBounds ?_ ?_⟩
  · exact ⟨Nat.zero_le _, by simp [initial]⟩
  · intro b t b' h hfits hnx
    cases hnx
    exact h.step_iff.mpr hfits

def afterAll (ts : List Input) : Backend :=
  ts.foldl (fun b t => (comIoTtyProcessChar t b).2) initial

theorem afterAll_replicate (n : ℕ) : (afterAll (replicate n (typed true 97))).index = n := by
  induction n with
  | zero => rfl
  | succ n ih =>
    rw [afterAll, replicate_succ', foldl_append, ← afterAll]
    exact congrArg (· + 1) ih

theorem canon_in_bounds_typed : InBounds (afterAll [typed true 97, typed true 98]) :=
  (canon_in_bounds _).2 (.step (.step .start (.inl (by decide)) rfl) (.inl (by decide)) rfl)

/-- The `a` key, 1025 times. -/
theorem canon_overflows : ¬ InBounds (afterAll (replicate 1025 (typed true 97))) := by
  intro hin
  have := hin.1
  rw [afterAll_replicate 1025] at this
  exact absurd this (by decide)

structure Editor where
  line : Text
  delivered : Text

def Editor.type (e : Editor) (t : Input) : Editor :=
  let c := mapped t
  if (sent t).isSome ∨ Ignored t then e
  else if Is t .eof c then ⟨[], e.delivered ++ e.line⟩
  else if c = nl ∨ c = cr then ⟨[], e.delivered ++ (e.line ++ [c])⟩
  else if Is t .erase c then ⟨e.line.dropLast, e.delivered⟩
  else if Is t .kill c then ⟨[], e.delivered⟩
  else ⟨e.line ++ [c], e.delivered⟩

/-- `ICANON`, proper control characters, echoes that succeed, a short line and room for it. -/
structure Editing (t : Input) (b : Backend) : Prop where
  icanon : t.termios.icanon = true
  distinct : Function.Injective t.termios.cc
  newline : ∀ k, ¬ Is t k nl ∧ ¬ Is t k cr
  echo : ∀ text index, t.echo text index = 0
  short : b.index < COM_IO_TTY_BUF_SZ
  room : b.index < t.taken

/-- When the line is killed, the byte behind it is no newline of an earlier line. -/
def Fresh (t : Input) (b : Backend) : Prop :=
  Is t .kill (mapped t) → 0 < b.index → b.buffer b.index ≠ nl

structure Edits (b : Backend) (e : Editor) : Prop where
  line : b.line = e.line
  delivered : b.written = e.delivered
  plain : nl ∉ e.line

section Simulation

variable {e : Editor} (hec : ∀ text index, t.echo text index = 0)

theorem length_line : b.line.length = b.index := by simp [Backend.line]

theorem line_store (c : BitVec 8) : (b.store c).line = b.line ++ [c] := by
  unfold Backend.line Backend.store
  rw [range_succ, map_append]
  congr 1
  · exact map_congr_left fun i hi => update_of_ne (mem_range.mp hi).ne _ _
  · simp

theorem Editing.not_other (h : Editing t b) {k' : Control} {c : BitVec 8} (hk : Is t k c)
    (hne : k' ≠ k) : ¬ Is t k' c :=
  fun hk' => hne (h.distinct (hk'.trans hk.symm))

include hec

theorem finish_plain {lineDone : Bool} :
    (finish t false lineDone ret b).2.line = (if lineDone then [] else b.line ++ [mapped t]) ∧
      (finish t false lineDone ret b).2.written =
        b.written ++ if lineDone then (b.line ++ [mapped t]).take t.taken else [] := by
  have hok : ¬ (false = false ∧ t.termios.echo ∧ (insert t false ret b).1 ≠ 0) := by
    rintro ⟨-, hfl, hne⟩
    exact hne (by simp [insert, hfl, hec])
  unfold finish
  dsimp only
  rw [if_neg hok, ← line_store]
  cases lineDone
  · exact ⟨rfl, (append_nil _).symm⟩
  · exact ⟨rfl, rfl⟩

theorem killLine_ok {buffer : ℕ → BitVec 8} (n : ℕ)
    (hnl : ∀ i, 0 < i → i ≤ n → buffer i ≠ nl) : killLine t buffer n = (0, 0) := by
  induction n with
  | zero => rfl
  | succ n ih =>
    rw [killLine, if_neg (hnl _ n.succ_pos le_rfl), if_neg (by simp [hec])]
    exact ih fun i hps hi => hnl i hps (hi.trans n.le_succ)

theorem edit_ok (hkl : Is t .kill (mapped t) → ∀ i, 0 < i → i ≤ b.index → b.buffer i ≠ nl)
    (hbt : ¬ (Is t .erase (mapped t) ∧ Is t .kill (mapped t))) :
    edit t handled b =
      if Is t .kill (mapped t) then ⟨true, 0, 0⟩
      else if Is t .erase (mapped t) then ⟨true, 0, b.index - 1⟩
      else ⟨handled || Is t .eof (mapped t), 0, b.index⟩ := by
  by_cases hk : Is t .kill (mapped t)
  · have he : ¬ Is t .erase (mapped t) := fun he => hbt ⟨he, hk⟩
    simp [edit, eraseChar, he, hk, killLine_ok hec b.index (hkl hk)]
  · by_cases he : Is t .erase (mapped t)
    · by_cases hz : b.index = 0 <;> simp [edit, eraseChar, he, hk, hec, hz]
    · simp [edit, eraseChar, he, hk]

end Simulation

theorem Edits.cut {e : Editor} (h : Edits b e) {n : ℕ} (hn : n ≤ b.index) :
    Edits (finish t true false ret (b.edited t n)).2 ⟨e.line.take n, e.delivered⟩ := by
  refine ⟨?_, ?_, fun hme => h.plain (mem_of_mem_take hme)⟩
  · rw [finish_handled.1, ← h.line]
    exact line_edited hn
  · rw [finish_handled.2]
    exact (append_nil _).trans h.delivered

theorem Edits.step {e : Editor} (h : Edits b e) (hed : Editing t b) (hfr : Fresh t b) :
    Edits (comIoTtyProcessChar t b).2 (e.type t) := by
  have hrt : sentRet t b.index = 0 := by
    unfold sentRet signalText
    simp [hed.echo]
  have hln : e.line.length = b.index := by rw [← h.line, length_line]
  have hsm : (b.edited t b.index).line = e.line := by
    rw [line_edited le_rfl, h.line, ← hln, take_length]
  have hkl : Is t .kill (mapped t) → ∀ i, 0 < i → i ≤ b.index → b.buffer i ≠ nl := by
    intro hk i hps hi hnl
    rcases hi.lt_or_eq with hi | rfl
    · exact h.plain (h.line ▸ mem_map.mpr ⟨i, mem_range.mpr hi, hnl⟩)
    · exact hfr hk hps hnl
  have hbt : ¬ (Is t .erase (mapped t) ∧ Is t .kill (mapped t)) :=
    fun hb => hed.not_other hb.1 (by decide) hb.2
  rw [comIoTtyProcessChar, if_neg (not_not.mpr hrt), Editor.type]
  by_cases hig : Ignored t
  · rw [if_pos hig]
    rw [if_pos (.inr hig)]
    exact h
  rw [if_neg hig, if_pos hed.icanon]
  by_cases hs : (sent t).isSome
  · -- a control character, which no mapping changes
    obtain ⟨k, -, hk, hc⟩ := sent_isSome.mp hs
    have hnl : t.c ≠ nl := fun he => (hed.newline k).1 (he ▸ hc)
    have hcr : t.c ≠ cr := fun he => (hed.newline k).2 (he ▸ hc)
    have hm : mapped t = t.c := by simp [mapped, hnl, hcr]
    have hot : ∀ k', signal k' = none → ¬ Is t k' (mapped t) := by
      intro k' hk'
      rw [hm]
      refine hed.not_other hc ?_
      rintro rfl
      simp [hk'] at hk
    have hdn : lineDone t = false :=
      decide_eq_false (not_or.mpr ⟨hot .eof rfl, by simp [hm, hnl, hcr]⟩)
    rw [if_pos (.inl hs), edit_ok hed.echo hkl hbt, if_neg (hot .kill rfl),
      if_neg (hot .erase rfl), hs, hdn, Bool.true_or]
    have hct : Edits (finish t true false 0 (b.edited t b.index)).2
        ⟨e.line.take b.index, e.delivered⟩ := h.cut le_rfl
    rwa [← hln, take_length, hln] at hct
  rw [if_neg (not_or.mpr ⟨hs, hig⟩), edit_ok hed.echo hkl hbt, Bool.eq_false_iff.mpr hs,
    Bool.false_or]
  by_cases hef : Is t .eof (mapped t)
  · have hot {k : Control} (hne : k ≠ .eof) := hed.not_other hef hne
    rw [if_neg (@hot .kill (by decide)), if_neg (@hot .erase (by decide)), if_pos hef,
      show lineDone t = true from decide_eq_true (.inl hef), decide_eq_true hef]
    refine ⟨finish_handled.1, ?_, not_mem_nil⟩
    rw [finish_handled.2, if_pos rfl, hsm, take_of_length_le (hln ▸ hed.room.le)]
    exact congrArg (· ++ e.line) h.delivered
  rw [if_neg hef, decide_eq_false hef]
  by_cases hen : mapped t = nl ∨ mapped t = cr
  · have hnt : ∀ k, ¬ Is t k (mapped t) := by
      intro k
      rcases hen with he | he <;> rw [he]
      · exact (hed.newline k).1
      · exact (hed.newline k).2
    rw [if_neg (hnt _), if_neg (hnt _), if_pos hen,
      show lineDone t = true from decide_eq_true (.inr hen)]
    refine ⟨(finish_plain hed.echo).1, ?_, not_mem_nil⟩
    rw [(finish_plain hed.echo).2, if_pos rfl, hsm,
      take_of_length_le (by rw [length_append, hln]; exact hed.room)]
    exact congrArg (· ++ (e.line ++ [mapped t])) h.delivered
  have hdn : lineDone t = false := decide_eq_false (not_or.mpr ⟨hef, hen⟩)
  rw [if_neg hen, hdn]
  by_cases hk : Is t .kill (mapped t)
  · rw [if_pos hk, if_neg fun he => hbt ⟨he, hk⟩, if_pos hk]
    exact h.cut (Nat.zero_le _)
  rw [if_neg hk, if_neg hk]
  by_cases he : Is t .erase (mapped t)
  · rw [if_pos he, if_pos he, dropLast_eq_take, hln]
    exact h.cut (Nat.sub_le _ _)
  · rw [if_neg he, if_neg he]
    refine ⟨by rw [(finish_plain hed.echo).1, hsm]; rfl, ?_, ?_⟩
    · rw [(finish_plain hed.echo).2]
      exact (append_nil _).trans h.delivered
    · rw [mem_append, mem_singleton, not_or]
      exact ⟨h.plain, fun hnl => hen (.inl hnl.symm)⟩

/-- The line discipline and a line editor, given the same characters. -/
def nextBoth (s : Backend × Editor) (t : Input) : Option (Backend × Editor) :=
  some ((comIoTtyProcessChar t s.1).2, s.2.type t)

/-- What is delivered is what a line editor delivers. -/
theorem line_editing (s : Backend × Editor)
    (h : Runs.Reaches nextBoth (fun s t => Editing t s.1 ∧ Fresh t s.1) (initial, ⟨[], []⟩) s) :
    s.1.written = s.2.delivered := by
  refine (h.invariant (fun s => Edits s.1 s.2) ⟨rfl, rfl, not_mem_nil⟩ ?_).delivered
  intro s t s' hs hok hnx
  cases hnx
  exact hs.step hok.1 hok.2

theorem editing_typed (c : BitVec 8) (h : b.index < COM_IO_TTY_BUF_SZ) :
    Editing (typed true c) b where
  icanon := rfl
  distinct k k' := by cases k <;> cases k' <;> simp [typed, usual]
  newline k := by
    change ¬ usual k = nl.toInt ∧ ¬ usual k = cr.toInt
    cases k <;> decide
  echo _ _ := rfl
  short := h
  room := h

theorem nextBoth_typed (c : BitVec 8) {s : Backend × Editor}
    (h : Runs.Reaches nextBoth (fun s t => Editing t s.1 ∧ Fresh t s.1) (initial, ⟨[], []⟩) s)
    (hindex : s.1.index < COM_IO_TTY_BUF_SZ) (hfresh : Fresh (typed true c) s.1) :
    Runs.Reaches nextBoth (fun s t => Editing t s.1 ∧ Fresh t s.1) (initial, ⟨[], []⟩)
      ((comIoTtyProcessChar (typed true c) s.1).2, s.2.type (typed true c)) :=
  .step h ⟨editing_typed c hindex, hfresh⟩ rfl

/-- `x` and the kill character, then `ab`, the erase character and a newline: `a` is delivered. -/
theorem line_editing_edited :
    ∃ s : Backend × Editor, s.1.written = s.2.delivered ∧ s.2.delivered = [97, nl] := by
  have hx := nextBoth_typed 120 .start (by decide) (by unfold Fresh; decide)
  have hkill := nextBoth_typed 21 hx (by decide +kernel) (by unfold Fresh; decide +kernel)
  have ha := nextBoth_typed 97 hkill (by decide +kernel) (by unfold Fresh; decide +kernel)
  have hb := nextBoth_typed 98 ha (by decide +kernel) (by unfold Fresh; decide +kernel)
  have herase := nextBoth_typed 127 hb (by decide +kernel) (by unfold Fresh; decide +kernel)
  have hnl := nextBoth_typed nl herase (by decide +kernel) (by unfold Fresh; decide +kernel)
  exact ⟨_, line_editing _ hnl, by decide +kernel⟩

/-- `ab` and a newline, then `xy`, the kill character and a newline: `xy` is delivered. -/
theorem line_editing_stale :
    let ts := ([97, 98, nl, 120, 121, 21, nl] : Text).map (typed true)
    (afterAll ts).written = [97, 98, nl, 120, 121, nl] ∧
      (ts.foldl Editor.type ⟨[], []⟩).delivered = [97, 98, nl, nl] := by
  decide +kernel

end Tty
