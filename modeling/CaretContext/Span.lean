/-!
# Spans

A span is a half-open range of byte offsets. The caret counts as inside a span up to and including
its last byte, and an empty or reversed span still covers its own start. Spans of hand-made trees
may be empty, reversed or beyond the text, so nothing here assumes `start ≤ stop`.
-/

namespace CaretContext

/-- The byte range from `start` up to, not including, `stop`. -/
structure Span where
  start : Nat
  stop : Nat
deriving DecidableEq, Repr, Inhabited

namespace Span

/-- The offset of the last byte covered, or the start when no byte is. -/
def last (s : Span) : Nat := max (s.stop - 1) s.start

/-- Whether the caret at `offset` is inside: from the start to the last byte, both included. -/
def Contains (s : Span) (offset : Nat) : Prop := s.start ≤ offset ∧ offset ≤ s.last

instance (s : Span) (offset : Nat) : Decidable (s.Contains offset) :=
  inferInstanceAs (Decidable (_ ∧ _))

def empty (offset : Nat) : Span := ⟨offset, offset⟩

def through (s t : Span) : Span := ⟨s.start, t.stop⟩

theorem start_le_last (s : Span) : s.start ≤ s.last := Nat.le_max_right _ _

theorem last_of_lt {s : Span} (h : s.start < s.stop) : s.last = s.stop - 1 := by
  unfold last; omega

end Span

end CaretContext
