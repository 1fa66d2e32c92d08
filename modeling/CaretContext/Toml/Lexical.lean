import CaretContext.Toml.Value

/-!
# White space, keys and strings of TOML

Every reader takes the characters that are left and gives what it read with the characters after it,
or nothing when they do not fit.
-/

namespace CaretContext.Toml

abbrev Reader (α : Type) := List Char → Option (α × List Char)

/-! ### White space and comments -/

def isBlank (c : Char) : Bool := c = ' ' || c = '\t'

/-- Whether the character may stand in comments and strings as it is. -/
def isPrintable (c : Char) : Bool := c = '\t' || (decide (0x20 ≤ c.toNat) && c.toNat != 0x7F)

def skipBlanks (cs : List Char) : List Char := cs.dropWhile isBlank

def lineBreak? : List Char → Option (List Char)
  | '\n' :: rest => some rest
  | '\r' :: '\n' :: rest => some rest
  | _ => none

/-- The characters after a comment, up to the line break. -/
def skipComment : List Char → Option (List Char)
  | '#' :: rest =>
    let rest := rest.dropWhile isPrintable
    if rest.isEmpty || (lineBreak? rest).isSome then some rest else none
  | cs => some cs

/-- The characters after the end of a line: blanks, a comment, and a line break or the end. -/
def endOfLine (cs : List Char) : Option (List Char) := do
  let cs ← skipComment (skipBlanks cs)
  if cs.isEmpty then return [] else lineBreak? cs

/-- Skips blanks, comments and line breaks, at most `n` lines of them. -/
def skipLines : Nat → List Char → Option (List Char)
  | 0, cs => some (skipBlanks cs)
  | n + 1, cs => do
    let cs ← skipComment (skipBlanks cs)
    match lineBreak? cs with
    | some rest => skipLines n rest
    | none => return cs

def skipSpace (cs : List Char) : Option (List Char) := skipLines cs.length cs

/-! ### Strings -/

def hexValue? (c : Char) : Option Nat :=
  if c.isDigit then some (c.toNat - '0'.toNat)
  else if 'a' ≤ c && c ≤ 'f' then some (c.toNat - 'a'.toNat + 10)
  else if 'A' ≤ c && c ≤ 'F' then some (c.toNat - 'A'.toNat + 10)
  else none

/-- The character with the code point, if there is one. -/
def charOfCode? (n : Nat) : Option Char :=
  if n.isValidChar then some (Char.ofNat n) else none

/-- The character written as `count` hexadecimal digits. -/
def hexEscape (count : Nat) : Reader Char := fun cs => do
  let digits ← (cs.take count).mapM hexValue?
  if digits.length = count then
    return (← charOfCode? (digits.foldl (fun n d => 16 * n + d) 0), cs.drop count)
  else none

def escape : Reader Char
  | 'b' :: rest => some ('\x08', rest)
  | 't' :: rest => some ('\t', rest)
  | 'n' :: rest => some ('\n', rest)
  | 'f' :: rest => some ('\x0c', rest)
  | 'r' :: rest => some ('\r', rest)
  | 'e' :: rest => some ('\x1b', rest)
  | '"' :: rest => some ('"', rest)
  | '\\' :: rest => some ('\\', rest)
  | 'x' :: rest => hexEscape 2 rest
  | 'u' :: rest => hexEscape 4 rest
  | 'U' :: rest => hexEscape 8 rest
  | _ => none

/-- The rest of a string on one line, at most `n` characters of it, after its opening quote. -/
def basicString : Nat → Reader (List Char)
  | 0, _ => none
  | n + 1, cs =>
    match cs with
    | '"' :: rest => some ([], rest)
    | '\\' :: rest => do
      let (c, rest) ← escape rest
      let (text, rest) ← basicString n rest
      return (c :: text, rest)
    | c :: rest => do
      if !isPrintable c then none
      let (text, rest) ← basicString n rest
      return (c :: text, rest)
    | [] => none

/-- The rest of a literal string on one line, after its opening quote. -/
def literalString : Reader (List Char)
  | '\'' :: rest => some ([], rest)
  | c :: rest => do
    if !isPrintable c then none
    let (text, rest) ← literalString rest
    return (c :: text, rest)
  | [] => none

/-- The end of a string of several lines. Up to two quotes before the closing three belong to the
string. -/
def closingQuotes (quote : Char) : Reader (List Char)
  | a :: b :: c :: d :: e :: rest =>
    if a = quote && b = quote && c = quote then
      if d = quote && e = quote then some ([quote, quote], rest)
      else if d = quote then some ([quote], e :: rest)
      else some ([], d :: e :: rest)
    else none
  | [a, b, c, d] =>
    if a = quote && b = quote && c = quote then
      if d = quote then some ([quote], []) else some ([], [d])
    else none
  | [a, b, c] => if a = quote && b = quote && c = quote then some ([], []) else none
  | _ => none

def skipBlankLines (cs : List Char) : List Char :=
  cs.dropWhile fun c => isBlank c || c = '\n' || c = '\r'

/-- The characters after a line that ends in a backslash and the white space that follows. -/
def lineContinuation? (cs : List Char) : Option (List Char) :=
  let cs := skipBlanks cs
  if (lineBreak? cs).isSome then some (skipBlankLines cs) else none

/-- Whether the character may stand in a string of several lines as it is. -/
def isMultilineChar (c : Char) (rest : List Char) : Bool :=
  isPrintable c || c = '\n' || (c = '\r' && rest.head? = some '\n')

/-- The rest of a string of several lines, at most `n` characters of it. -/
def multilineString : Nat → Reader (List Char)
  | 0, _ => none
  | n + 1, cs =>
    match closingQuotes '"' cs with
    | some (text, rest) => some (text, rest)
    | none =>
      match cs with
      | '\\' :: rest =>
        match lineContinuation? rest with
        | some rest => multilineString n rest
        | none => do
          let (c, rest) ← escape rest
          let (text, rest) ← multilineString n rest
          return (c :: text, rest)
      | c :: rest => do
        if !isMultilineChar c rest then none
        let (text, rest) ← multilineString n rest
        return (c :: text, rest)
      | [] => none

def multilineLiteral (cs : List Char) : Option (List Char × List Char) :=
  match closingQuotes '\'' cs with
  | some (text, rest) => some (text, rest)
  | none =>
    match cs with
    | c :: rest => do
      if !isMultilineChar c rest then none
      let (text, rest) ← multilineLiteral rest
      return (c :: text, rest)
    | [] => none

def lineString : Reader String
  | '"' :: rest => do
    let (text, rest) ← basicString (rest.length + 1) rest
    return (String.ofList text, rest)
  | '\'' :: rest => do
    let (text, rest) ← literalString rest
    return (String.ofList text, rest)
  | _ => none

/-- A string of any form. A line break right after three opening quotes is not part of it. -/
def anyString : Reader String
  | '"' :: '"' :: '"' :: rest => do
    let rest := (lineBreak? rest).getD rest
    let (text, rest) ← multilineString (rest.length + 1) rest
    return (String.ofList text, rest)
  | '\'' :: '\'' :: '\'' :: rest => do
    let rest := (lineBreak? rest).getD rest
    let (text, rest) ← multilineLiteral rest
    return (String.ofList text, rest)
  | cs => lineString cs

/-! ### Keys -/

def isBareKeyChar (c : Char) : Bool := c.isAlphanum || c = '_' || c = '-'

def simpleKey : Reader String := fun cs =>
  match cs with
  | '"' :: _ => lineString cs
  | '\'' :: _ => lineString cs
  | _ =>
    let key := cs.takeWhile isBareKeyChar
    if key.isEmpty then none else some (String.ofList key, cs.drop key.length)

/-- How many parts a key may have, and how deep values may nest. -/
def maxDepth : Nat := 80

/-- The parts of a key with points between them, at most `n` of them. -/
def dottedKey : Nat → Reader (List String)
  | 0, _ => none
  | n + 1, cs => do
    let (part, rest) ← simpleKey (skipBlanks cs)
    let rest := skipBlanks rest
    match rest with
    | '.' :: rest => do
      let (parts, rest) ← dottedKey n rest
      return (part :: parts, rest)
    | _ => return ([part], rest)

/-- A key of one or more parts, with the blanks around it. -/
def key : Reader (List String) := dottedKey maxDepth

end CaretContext.Toml
