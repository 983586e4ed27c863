import Mathlib.Algebra.Order.Ring.Nat

/-! # Waiting for room in a terminal's buffer

The loop of `com_io_term_putsn` and `flush_buffer_nolock` of `com/io/term.c` with buffering on. -/
namespace TerminalWait

abbrev Text := List UInt8

def COM_IO_TERM_BUFSZ : ℕ := 2048

structure Term where
  /-- The first `buffering.index` bytes. -/
  buffer : Text
  out : Text

def Term.flushBufferNolock (m : Term) : Term :=
  if m.buffer.length = 0 then m else { buffer := [], out := m.out ++ m.buffer }

/-- The sum of two `size_t`. -/
def Blocked (m : Term) (s : Text) : Prop :=
  COM_IO_TERM_BUFSZ ≤ (m.buffer.length + s.length) % 2 ^ 64
  deriving Decidable

/-- The call waits through so many flushes; no result is that it waits for another. -/
def comIoTermPutsn (s : Text) : ℕ → Term → Option Term
  | 0, m => if Blocked m s then none else some { m with buffer := m.buffer ++ s }
  | flushes + 1, m =>
    if Blocked m s then comIoTermPutsn s flushes m.flushBufferNolock
    else some { m with buffer := m.buffer ++ s }

theorem flush_buffer (m : Term) : m.flushBufferNolock.buffer = [] := by
  unfold Term.flushBufferNolock
  split
  · next h => exact List.length_eq_zero_iff.mp h
  · rfl

theorem blocked_flush (m : Term) (s : {s : Text // s.length < 2 ^ 64}) :
    Blocked m.flushBufferNolock s ↔ COM_IO_TERM_BUFSZ ≤ s.1.length := by
  rw [Blocked, flush_buffer, List.length_nil, Nat.zero_add, Nat.mod_eq_of_lt s.2]

/-- One flush is enough for a text that the buffer can hold, and for a longer one none is. -/
theorem putsn_returns_iff (m : Term) (s : {s : Text // s.length < 2 ^ 64}) :
    ((comIoTermPutsn s 1 m).isSome ↔ ¬ Blocked m s ∨ s.1.length < COM_IO_TERM_BUFSZ) ∧
      (comIoTermPutsn s 1 m = none → ∀ flushes, comIoTermPutsn s flushes m = none) := by
  by_cases hb : Blocked m s
  · have hone : comIoTermPutsn s 1 m = comIoTermPutsn s 0 m.flushBufferNolock := if_pos hb
    by_cases hs : COM_IO_TERM_BUFSZ ≤ s.1.length
    · have hall : ∀ flushes m, Blocked m s → comIoTermPutsn s flushes m = none := by
        intro flushes
        induction flushes with
        | zero => exact fun m hb => if_pos hb
        | succ flushes ih =>
          intro m hb
          rw [comIoTermPutsn, if_pos hb]
          exact ih _ ((blocked_flush m s).mpr hs)
      exact ⟨by simp [hall 1 m hb, hb, hs], fun _ flushes => hall flushes m hb⟩
    · have hleave : comIoTermPutsn s 0 m.flushBufferNolock ≠ none := by
        rw [comIoTermPutsn, if_neg (mt (blocked_flush m s).mp hs)]
        simp
      refine ⟨iff_of_true ?_ (.inr (not_le.mp hs)), fun h => absurd (hone ▸ h) hleave⟩
      rw [hone]
      exact Option.isSome_iff_ne_none.mpr hleave
  · have hone : comIoTermPutsn s 1 m = some { m with buffer := m.buffer ++ s } := if_neg hb
    exact ⟨iff_of_true (hone ▸ rfl) (.inl hb), fun h =>
      absurd (hone.symm.trans h) (Option.some_ne_none _)⟩

theorem putsn_never_returns : ¬ ∃ flushes,
    (comIoTermPutsn (List.replicate 2048 0) flushes ⟨[], []⟩).isSome := by
  have hb : Blocked ⟨[], []⟩ (List.replicate 2048 0) := by
    rw [Blocked, List.length_replicate]
    decide
  rintro ⟨flushes, h⟩
  induction flushes with
  | zero =>
    rw [comIoTermPutsn, if_pos hb] at h
    cases h
  | succ flushes ih =>
    rw [comIoTermPutsn, if_pos hb] at h
    exact ih h

end TerminalWait
