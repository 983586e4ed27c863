import Mathlib.Data.BitVec

/-! # Modes of a terminal

`KTTY_IOCTL_SETMODE` of `com/io/tty.c`. The text and the framebuffer state share a union, in which
`fb.owner` is the low half of `text.term`. -/
namespace TtyMode

inductive TtyType where
  | text
  | framebuffer
  deriving DecidableEq

/-- `B` is the rest of `com_text_tty_backend_t`: `termios`, the canonical buffer, `slave_rb`. -/
structure Tty (B : Type*) where
  type : TtyType
  /-- `kbd_in` is `text_tty_kbd_in`, and not `fb_tty_kbd_in`. -/
  textKbd : Bool
  /-- `mouse_in` is `fb_tty_mouse_in`, and not `NULL`. -/
  mouse : Bool
  termHigh : BitVec 32
  termLow : BitVec 32
  fgPgid : BitVec 32
  backend : B

/-- What is done on a terminal. Text operations are `tty_read`, `tty_write` and the other requests
of `tty_ioctl`, with what they do to the backend. -/
inductive Op (B : Type*) where
  | setMode (mode : ℕ)
  | text (f : B → B)
  | kbd (f : B → B)
  | mouse

def KTTY_MODE_TEXT : ℕ := 0
def KTTY_MODE_GRAPHICS : ℕ := 1

variable {B : Type*}

def Tty.setMode (tty : Tty B) (mode : ℕ) : Tty B :=
  if mode = KTTY_MODE_TEXT then { tty with type := .framebuffer, textKbd := true, mouse := false }
  else if mode = KTTY_MODE_GRAPHICS then
    { tty with type := .framebuffer, textKbd := false, mouse := true, termLow := tty.fgPgid }
  else tty

/-- There is no next state if an assertion fails. -/
def run (tty : Tty B) : Op B → Option (Tty B)
  | .setMode mode => some (tty.setMode mode)
  | .text f => some (if tty.type = .text then { tty with backend := f tty.backend } else tty)
  | .kbd f =>
    if tty.textKbd then
      if tty.type = .text then some { tty with backend := f tty.backend } else none
    else some tty
  | .mouse => some tty

structure Lossless (tty tty' : Tty B) : Prop where
  type : tty'.type = .text
  kbd : tty'.textKbd = true
  term : tty'.termHigh = tty.termHigh ∧ tty'.termLow = tty.termLow
  fgPgid : tty'.fgPgid = tty.fgPgid
  backend : tty'.backend = tty.backend
  input : ∀ f, (run tty' (.kbd f)).isSome

def roundTrip (ops : List {op : Op B // op ≠ .setMode KTTY_MODE_TEXT}) : List (Op B) :=
  .setMode KTTY_MODE_GRAPHICS :: ops.map Subtype.val ++ [.setMode KTTY_MODE_TEXT]

theorem graphics_run (tty : Tty B) (ops : List {op : Op B // op ≠ .setMode KTTY_MODE_TEXT}) :
    (ops.map Subtype.val).foldlM run (tty.setMode KTTY_MODE_GRAPHICS) =
      some (tty.setMode KTTY_MODE_GRAPHICS) := by
  induction ops with
  | nil => rfl
  | cons op ops ih =>
    have hop : run (tty.setMode KTTY_MODE_GRAPHICS) op =
        some (tty.setMode KTTY_MODE_GRAPHICS) := by
      obtain ⟨op, hop⟩ := op
      cases op with
      | setMode mode =>
        have hmd : mode ≠ KTTY_MODE_TEXT := fun h => hop (h ▸ rfl)
        simp only [run, Tty.setMode, if_neg hmd]
        split <;> simp [KTTY_MODE_GRAPHICS, KTTY_MODE_TEXT]
      | text f | kbd f | mouse => rfl
    rw [List.map_cons, List.foldlM_cons, hop]
    exact ih

/-- After a round trip the terminal is still a framebuffer, so that keyboard input fails its
assertion, and its pointer is kept exactly if the low half is the foreground group. -/
theorem round_trip_loses (tty : Tty B) (ops : List {op : Op B // op ≠ .setMode KTTY_MODE_TEXT}) :
    ∃ tty', (roundTrip ops).foldlM run tty = some tty' ∧ tty'.type = .framebuffer ∧
      (∀ f, run tty' (.kbd f) = none) ∧ tty'.fgPgid = tty.fgPgid ∧ tty'.backend = tty.backend ∧
      tty'.termHigh = tty.termHigh ∧ (tty'.termLow = tty.termLow ↔ tty.termLow = tty.fgPgid) ∧
      ¬ Lossless tty tty' := by
  refine ⟨(tty.setMode KTTY_MODE_GRAPHICS).setMode KTTY_MODE_TEXT, ?_, rfl, fun f => rfl, rfl, rfl,
    rfl, eq_comm, fun h => ?_⟩
  · change (ops.map _ ++ _).foldlM run (tty.setMode KTTY_MODE_GRAPHICS) = _
    rw [List.foldlM_append, graphics_run]
    rfl
  · cases h.type

def console : Tty Unit := ⟨.text, true, false, 0xffff8000, 0x1000, 1, ()⟩

theorem console_lost : ∃ tty', (roundTrip []).foldlM run console = some tty' ∧
    tty'.type = .framebuffer ∧ tty'.termLow = 1 ∧ run tty' (.kbd id) = none :=
  ⟨_, rfl, rfl, rfl, rfl⟩

end TtyMode
