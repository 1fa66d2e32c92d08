import CaretContext.Php.Token

/-!
# Extents of lexemes

How far a lexeme of a given shape reaches: each function counts the leading characters that belong
to it.
-/

namespace CaretContext.Php

def isNameStart (c : Char) : Bool := c.isAlpha || c = '_' || decide (128 ≤ c.toNat)

def isNamePart (c : Char) : Bool := isNameStart c || c.isDigit

def isSpace (c : Char) : Bool :=
  c = ' ' || c = '\t' || c = '\n' || c = '\r' || c = '\x0b' || c = '\x0c'

/-- White space inside a lexeme: between the letters of a cast, before the label of a document, or at
the end of an index in a string. -/
def isBlank (c : Char) : Bool := c = ' ' || c = '\t' || c = '\n' || c = '\r' || c = '\x0c'

/-- The number of leading characters with the property. -/
def runLength (p : Char → Bool) (cs : List Char) : Nat := (cs.takeWhile p).length

/-- A name together with the parts that backslashes join to it. -/
def pathLength : List Char → Nat
  | '\\' :: c :: cs => if isNameStart c then pathLength cs + 2 else 0
  | c :: cs => if isNamePart c then pathLength cs + 1 else 0
  | [] => 0

/-- Whether the characters begin with the text, letters of any case. The text is in lower case. -/
def startsWord (text : List Char) (cs : List Char) : Bool :=
  text.isPrefixOf (cs.map Char.toLower)

/-- The length of a block comment after its opener, if it is closed. -/
def blockCommentLength? : List Char → Option Nat
  | '*' :: '/' :: _ => some 2
  | _ :: cs => (blockCommentLength? cs).map (· + 1)
  | [] => none

/-- A line comment ends before the line does, or before the program does. -/
def lineCommentLength : List Char → Nat
  | '?' :: '>' :: _ => 0
  | c :: cs => if c = '\n' || c = '\r' then 0 else lineCommentLength cs + 1
  | [] => 0

/-! ### Numbers -/

def isHexDigit (c : Char) : Bool :=
  c.isDigit || ('a' ≤ c && c ≤ 'f') || ('A' ≤ c && c ≤ 'F')

/-- Digits, with single underscores between them or in front. -/
def digitsLength (p : Char → Bool) : List Char → Nat
  | '_' :: c :: cs => if p c then digitsLength p cs + 2 else 0
  | c :: cs => if p c then digitsLength p cs + 1 else 0
  | [] => 0

def signLength : List Char → Nat
  | c :: _ => if c = '+' || c = '-' then 1 else 0
  | [] => 0

/-- The exponent of a decimal number. Without digits there is none. -/
def exponentLength : List Char → Nat
  | c :: cs =>
    let sign := signLength cs
    let digits := digitsLength Char.isDigit (cs.drop sign)
    if (c = 'e' || c = 'E') && 0 < digits then 1 + sign + digits else 0
  | [] => 0

/-- Whether an exponent with a digit right at its front begins here. -/
def opensExponent : List Char → Bool
  | c :: cs => (c = 'e' || c = 'E') && (cs.drop (signLength cs)).head?.any Char.isDigit
  | [] => false

/-- What follows the whole part of a decimal number. A point is always part of it. -/
def fractionLength : List Char → Nat
  | '.' :: cs =>
    let digits := digitsLength Char.isDigit cs
    digits + 1 + exponentLength (cs.drop digits)
  | cs => if opensExponent cs then exponentLength cs else 0

/-- The digits of a number in another base, by the letter after its zero. -/
def baseDigit? (letter : Char) : Option (Char → Bool) :=
  match letter.toLower with
  | 'x' => some isHexDigit
  | 'o' => some fun c => '0' ≤ c && c ≤ '7'
  | 'b' => some fun c => c = '0' || c = '1'
  | _ => none

/-- The length of a number in another base, if one stands here. -/
def basedLength? : List Char → Option Nat
  | '0' :: letter :: d :: cs =>
    (baseDigit? letter).bind fun p => if p d then some (digitsLength p (d :: cs) + 2) else none
  | _ => none

def decimalLength (cs : List Char) : Nat :=
  let whole := digitsLength Char.isDigit cs
  whole + fractionLength (cs.drop whole)

def numberLength (cs : List Char) : Nat := (basedLength? cs).getD (decimalLength cs)

/-- Whether the text of a number is a whole one with a leading zero and a digit beyond seven. -/
def isMalformedNumber (cs : List Char) : Bool :=
  cs.head? = some '0' && cs.all (fun c => c.isDigit || c = '_') && cs.any (fun c => c = '8' || c = '9')

/-! ### Strings -/

/-- The length of a string after its opening quote, the closing quote included. -/
def quotedLength? (quote : Char) : Bool → List Char → Option Nat
  | _, [] => none
  | escaped, c :: cs =>
    if c = '\\' then (quotedLength? quote (!escaped) cs).map (· + 1)
    else if c = quote && !escaped then some 1
    else (quotedLength? quote false cs).map (· + 1)

/-- The letters that a name may begin with in plain text. -/
def isPlainNameStart (c : Char) : Bool := c.isAlpha || c = '_'

def opensInterpolation : List Char → Bool
  | '$' :: c :: _ => isNameStart c || c = '{'
  | '{' :: c :: _ => c = '$'
  | _ => false

/-- Whether an expression begins here that makes a string one with interpolation. A variable whose
name starts beyond plain letters does not. -/
def marksInterpolation : List Char → Bool
  | '$' :: c :: _ => isPlainNameStart c || c = '{'
  | '{' :: c :: _ => c = '$'
  | _ => false

/-- Whether a string, after its opening quote, closes before any interpolation. -/
def isPlainQuoted : List Char → Bool
  | [] => true
  | ['\\'] => true
  | '\\' :: _ :: cs => isPlainQuoted cs
  | c :: cs => c = '"' || (!marksInterpolation (c :: cs) && isPlainQuoted cs)

/-- Literal text up to the closing quote or the next interpolation. -/
def literalLength (quote : Char) : Bool → List Char → Nat
  | _, [] => 0
  | escaped, c :: cs =>
    if !escaped && (c = quote || opensInterpolation (c :: cs)) then 0
    else literalLength quote (c = '\\' && !escaped) cs + 1

/-- Up to and including the closing character that pairs with one already opened. -/
def nestedLength (opener closer : Char) : Nat → List Char → Nat
  | _, [] => 0
  | depth, c :: cs =>
    if c = closer then
      match depth with
      | 0 => 1
      | depth + 1 => nestedLength opener closer depth cs + 1
    else if c = opener then nestedLength opener closer (depth + 1) cs + 1
    else nestedLength opener closer depth cs + 1

/-- An index inside a string: up to its closing bracket, or to white space before that. -/
def indexLength (cs : List Char) : Nat :=
  min (nestedLength '[' ']' 0 cs) (runLength (fun c => !isBlank c) cs)

/-- A variable inside a string, with one index or one property after it. -/
def simpleInterpolationLength (cs : List Char) : Nat :=
  let name := runLength isNamePart (cs.drop 1) + 1
  let suffix := match cs.drop name with
    | '[' :: rest => indexLength rest + 1
    | '-' :: '>' :: c :: rest =>
      if isPlainNameStart c then runLength isNamePart (c :: rest) + 2 else 0
    | '?' :: '-' :: '>' :: c :: rest =>
      if isPlainNameStart c then runLength isNamePart (c :: rest) + 3 else 0
    | _ => 0
  name + suffix

/-- Whether braces enclose the interpolation that begins here. -/
def opensBraces : List Char → Bool
  | '{' :: '$' :: _ => true
  | '$' :: '{' :: _ => true
  | _ => false

def interpolationLength (cs : List Char) : Nat :=
  if opensBraces cs then nestedLength '{' '}' 0 (cs.drop 2) + 2 else simpleInterpolationLength cs

/-! ### Documents -/

/-- The opening line of a document: whether it interpolates, its label, and its length. -/
structure DocumentOpening where
  interpolates : Bool
  label : List Char
  length : Nat

def lineBreakLength : List Char → Nat
  | '\r' :: '\n' :: _ => 2
  | '\n' :: _ => 1
  | _ => 0

/-- The opening of a document, after its `<<<`. The line break follows its label directly. -/
def documentOpening? (cs : List Char) : Option DocumentOpening :=
  let blanks := runLength isBlank cs
  let cs := cs.drop blanks
  let quoted := match cs with
    | '"' :: _ => some '"'
    | '\'' :: _ => some '\''
    | _ => none
  let width := if quoted.isSome then 1 else 0
  let cs := cs.drop width
  let label := cs.takeWhile isNamePart
  let cs := cs.drop label.length
  let closed := match quoted, cs with
    | some q, c :: _ => decide (c = q)
    | some _, [] => false
    | none, _ => true
  let lineBreak := lineBreakLength (cs.drop width)
  if (label.head?.any isPlainNameStart) && closed && 0 < lineBreak then
    some ⟨quoted != some '\'', label, blanks + width + label.length + width + lineBreak⟩
  else none

def isLineBlank (c : Char) : Bool := c = ' ' || c = '\t' || c = '\x0c'

/-- The closing label at the front of a line, with the white space before it. A plain letter or a
digit after it makes it no label. -/
def documentCloseLength? (label : List Char) (cs : List Char) : Option Nat :=
  let blanks := runLength isLineBlank cs
  let rest := cs.drop blanks
  if label.isPrefixOf rest && !((rest.drop label.length).head?.any Char.isAlphanum) then
    some (blanks + label.length)
  else none

/-- Document text up to the end of the line, the line break included, or to an interpolation. White
space after a backslash leaves what follows escaped. -/
def documentLineLength (interpolates : Bool) : Bool → List Char → Nat
  | _, [] => 0
  | _, '\r' :: '\n' :: _ => 2
  | escaped, c :: cs =>
    if c = '\n' || c = '\r' then 1
    else if isLineBlank c then documentLineLength interpolates escaped cs + 1
    else if interpolates && !escaped && opensInterpolation (c :: cs) then 0
    else documentLineLength interpolates (c = '\\' && !escaped) cs + 1

/-! ### Casts -/

/-- The length of the text at the front that spells the word, letters of any case and white space
between them. The word is in lower case. -/
def spacedLength? : List Char → List Char → Option Nat
  | [], _ => some 0
  | _ :: _, [] => none
  | w :: word, c :: cs =>
    if isBlank c then (spacedLength? (w :: word) cs).map (· + 1)
    else if c.toLower = w then (spacedLength? word cs).map (· + 1)
    else none

def castLength? (cs : List Char) : Option Nat :=
  castTypes.findSome? fun type => spacedLength? ('(' :: type.toList ++ [')']) cs

end CaretContext.Php
