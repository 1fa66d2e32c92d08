import CaretContext.Node
import CaretContext.Php.Token

/-!
# Binding levels

Operators bind at levels, the loosest first. A level decides how far an operand reaches: an operator
of a lower level ends it.
-/

namespace CaretContext.Php

inductive Level where
  | lowest
  | print
  | yieldFrom
  | yieldValue
  | wordOr
  | wordXor
  | wordAnd
  | assignment
  | conditional
  | coalesce
  | logicalOr
  | logicalAnd
  | bitOr
  | bitXor
  | bitAnd
  | equality
  | comparison
  | pipe
  | concatenation
  | shift
  | sum
  | product
  | unary
  | instanceOf
  | silence
  | power
  | clone
  | step
  | reference
  | call
  | instantiation
  | index
  | access
deriving DecidableEq, Repr, Inhabited

namespace Level

def rank (l : Level) : Nat := l.ctorIdx

instance : LT Level := ⟨fun a b => a.rank < b.rank⟩

instance : LE Level := ⟨fun a b => a.rank ≤ b.rank⟩

instance (a b : Level) : Decidable (a < b) := inferInstanceAs (Decidable (a.rank < b.rank))

instance (a b : Level) : Decidable (a ≤ b) := inferInstanceAs (Decidable (a.rank ≤ b.rank))

/-- Whether operators of the level in a row group to the right. -/
def groupsRight : Level → Bool
  | assignment | coalesce | equality | comparison | instanceOf | power => true
  | _ => false

end Level

/-- What stands between two operands. -/
inductive Infix where
  | assignment
  | conditional
  | pipe
  | binary (level : Level)
deriving DecidableEq, Repr

def Infix.level : Infix → Level
  | assignment => .assignment
  | conditional => .conditional
  | pipe => .pipe
  | binary level => level

/-- The operators written as symbols that come between operands. -/
def infixSymbols : List (String × Infix) :=
  [("=", .assignment), ("+=", .assignment), ("-=", .assignment), ("*=", .assignment),
    ("/=", .assignment), (".=", .assignment), ("%=", .assignment), ("**=", .assignment),
    ("&=", .assignment), ("|=", .assignment), ("^=", .assignment), ("<<=", .assignment),
    (">>=", .assignment), ("??=", .assignment),
    ("?", .conditional), ("|>", .pipe),
    ("??", .binary .coalesce), ("||", .binary .logicalOr), ("&&", .binary .logicalAnd),
    ("|", .binary .bitOr), ("^", .binary .bitXor), ("&", .binary .bitAnd),
    ("==", .binary .equality), ("!=", .binary .equality), ("<>", .binary .equality),
    ("===", .binary .equality), ("!==", .binary .equality), ("<=>", .binary .equality),
    ("<", .binary .comparison), ("<=", .binary .comparison), (">", .binary .comparison),
    (">=", .binary .comparison), (".", .binary .concatenation), ("<<", .binary .shift),
    (">>", .binary .shift), ("+", .binary .sum), ("-", .binary .sum), ("*", .binary .product),
    ("/", .binary .product), ("%", .binary .product), ("**", .binary .power)]

/-- The operators written as words that come between operands. -/
def infixWords : List (String × Infix) :=
  [("or", .binary .wordOr), ("xor", .binary .wordXor), ("and", .binary .wordAnd),
    ("instanceof", .binary .instanceOf)]

def Token.infix? (t : Token) : Option Infix :=
  match t.kind with
  | .symbol text => infixSymbols.lookup text
  | .keyword word => infixWords.lookup word
  | _ => none

def prefixSymbols : List (String × Level) :=
  [("!", .unary), ("~", .unary), ("-", .unary), ("+", .unary), ("@", .silence), ("++", .step),
    ("--", .step), ("&", .reference)]

def Token.prefixLevel? (t : Token) : Option Level :=
  match t.kind with
  | .symbol text => prefixSymbols.lookup text
  | .cast => some .unary
  | _ => none

/-- What comes after an operand without an operand of its own. -/
def postfixSymbols : List (String × Level) :=
  [("(", .call), ("[", .index), ("->", .access), ("?->", .access), ("::", .access), ("++", .step),
    ("--", .step)]

def Token.postfixLevel? (t : Token) : Option Level :=
  match t.kind with
  | .symbol text => postfixSymbols.lookup text
  | _ => none

end CaretContext.Php
