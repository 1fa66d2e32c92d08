import CaretContext.Span

/-!
# Source text

A source is a list of characters, and positions in it are byte offsets of its UTF-8 encoding.
An offset is a character boundary when some number of leading characters has exactly that many
bytes; only between boundaries can text be cut out.
-/

namespace CaretContext

/-- The text a question is asked about. -/
structure Source where
  chars : List Char
deriving DecidableEq, Repr, Inhabited

namespace Source

def ofString (s : String) : Source := ⟨s.toList⟩

end Source

def byteSize : List Char → Nat
  | [] => 0
  | c :: cs => c.utf8Size + byteSize cs

def encode (cs : List Char) : List UInt8 := cs.flatMap String.utf8EncodeChar

/-- The characters from the byte offset on, or nothing when it is no character boundary. -/
def dropBytes? : List Char → Nat → Option (List Char)
  | cs, 0 => some cs
  | [], _ + 1 => none
  | c :: cs, n + 1 => if c.utf8Size ≤ n + 1 then dropBytes? cs (n + 1 - c.utf8Size) else none

/-- The characters before the byte offset, or nothing when it is no character boundary. -/
def takeBytes? : List Char → Nat → Option (List Char)
  | _, 0 => some []
  | [], _ + 1 => none
  | c :: cs, n + 1 =>
    if c.utf8Size ≤ n + 1 then (takeBytes? cs (n + 1 - c.utf8Size)).map (c :: ·) else none

namespace Source

def byteLength (source : Source) : Nat := byteSize source.chars

def bytes (source : Source) : List UInt8 := encode source.chars

/-- The characters of a span. There are none to give when the span is reversed, reaches beyond the
text, or cuts a character. -/
def slice? (source : Source) (span : Span) : Option (List Char) :=
  if span.start ≤ span.stop then
    (dropBytes? source.chars span.start).bind (takeBytes? · (span.stop - span.start))
  else none

def text? (source : Source) (span : Span) : Option String :=
  (source.slice? span).map String.ofList

def charAt? (source : Source) (offset : Nat) : Option Char :=
  (dropBytes? source.chars offset).bind List.head?

end Source

theorem byteSize_append (as bs : List Char) : byteSize (as ++ bs) = byteSize as + byteSize bs := by
  induction as with
  | nil => exact (Nat.zero_add _).symm
  | cons a as ih =>
    rw [List.cons_append, byteSize, byteSize, ih]
    exact (Nat.add_assoc _ _ _).symm

theorem length_encode (cs : List Char) : (encode cs).length = byteSize cs := by
  induction cs with
  | nil => rfl
  | cons c cs ih =>
    simp only [encode, List.flatMap_cons, List.length_append, byteSize] at *
    rw [ih, String.length_utf8EncodeChar]

end CaretContext
