/-
  Stretches of source text.
-/

namespace DocComment

/-- The bytes from offset `start` up to, not including, offset `stop`. -/
structure Span where
  start : Nat
  stop : Nat
deriving DecidableEq

/-- The stretch that lies `offset` bytes further on. -/
def Span.shift (offset : Nat) (s : Span) : Span := ⟨s.start + offset, s.stop + offset⟩

@[simp] theorem Span.shift_zero (s : Span) : s.shift 0 = s := rfl

end DocComment
