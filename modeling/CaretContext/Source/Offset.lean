import CaretContext.Source

/-!
# Offsets in characters, bytes and lines

Editors count characters, the tree counts bytes. Both conversions clamp at the end of the text and
round down to a character boundary. Lines are numbered from one.
-/

namespace CaretContext

def fitting : List Char → Nat → Nat
  | [], _ => 0
  | c :: cs, n => if c.utf8Size ≤ n then fitting cs (n - c.utf8Size) + 1 else 0

namespace Source

/-- The byte offset at which character number `count` starts. -/
def byteOffset (source : Source) (count : Nat) : Nat := byteSize (source.chars.take count)

/-- The number of the character at the byte offset, that of the character around it when the
offset is inside one. -/
def charOffset (source : Source) (offset : Nat) : Nat := fitting source.chars offset

/-- The line of the byte offset: one more than the line feeds before it, as a number of 32 bits. -/
def lineOf (source : Source) (offset : Nat) : Nat :=
  ((source.bytes.take offset).count 10 + 1) % UInt32.size

end Source

end CaretContext
