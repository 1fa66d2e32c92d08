import CaretContext.Toml.Lexical
import CaretContext.Toml.Scalar

/-!
# TOML documents

Values, and the lines of a document with their headers.
-/

namespace CaretContext.Toml

def isWordChar (c : Char) : Bool :=
  c.isAlphanum || c = '_' || c = '-' || c = '+' || c = '.' || c = ':'

/-- The length of a bare word. A date may be followed by a time after one blank. -/
def bareLength (cs : List Char) : Nat :=
  let word := (cs.takeWhile isWordChar).length
  match isDate (cs.take word), cs.drop word with
  | true, ' ' :: d :: rest =>
    if d.isDigit then word + 1 + ((d :: rest).takeWhile isWordChar).length else word
  | _, _ => word

def bareValue : Reader Value := fun cs =>
  let word := cs.take (bareLength cs)
  let rest := cs.drop word.length
  if word = ['t', 'r', 'u', 'e'] then some (.boolean true, rest)
  else if word = ['f', 'a', 'l', 's', 'e'] then some (.boolean false, rest)
  else if isScalar word then some (.scalar (String.ofList word), rest)
  else none

mutual

/-- A value inside `depth` arrays and tables, through at most `n` steps. -/
def value : Nat → Nat → Reader Value
  | 0, _, _ => none
  | n + 1, depth, cs =>
    match cs with
    | '"' :: _ => (anyString cs).map fun (text, rest) => (.string text, rest)
    | '\'' :: _ => (anyString cs).map fun (text, rest) => (.string text, rest)
    | '[' :: rest =>
      if depth < maxDepth then
        (arrayItems n (depth + 1) rest).map fun (items, rest) => (.array items, rest)
      else none
    | '{' :: rest =>
      if depth < maxDepth then
        (inlineEntries n (depth + 1) [] rest).map fun (entries, rest) =>
          (.table .inline entries, rest)
      else none
    | _ => bareValue cs

/-- The items of an array up to its closing bracket. The last may have a comma behind it. -/
def arrayItems : Nat → Nat → Reader (List Value)
  | 0, _, _ => none
  | n + 1, depth, cs => do
    let cs ← skipSpace cs
    match cs with
    | ']' :: rest => return ([], rest)
    | _ =>
      let (item, rest) ← value n depth cs
      let rest ← skipSpace rest
      match rest with
      | ',' :: rest =>
        let (items, rest) ← arrayItems n depth rest
        return (item :: items, rest)
      | ']' :: rest => return ([item], rest)
      | _ => none

/-- The entries of an inline table up to its closing brace. Lines may break anywhere between its
keys, signs and values. -/
def inlineEntries : Nat → Nat → Entries → Reader Entries
  | 0, _, _, _ => none
  | n + 1, depth, entries, cs => do
    let cs ← skipSpace cs
    match cs with
    | '}' :: rest => return (entries, rest)
    | _ =>
      let (path, rest) ← key cs
      let rest ← skipSpace rest
      match rest with
      | '=' :: rest =>
        let rest ← skipSpace rest
        let (item, rest) ← value n depth rest
        let entries ← entries.define path item
        let rest ← skipSpace rest
        match rest with
        | ',' :: rest => inlineEntries n depth entries rest
        | '}' :: rest => return (entries, rest)
        | _ => none
      | _ => none

end

/-- What has been read of a document: its entries and the header in force. -/
structure Draft where
  root : Entries
  header : List String

def Draft.define (draft : Draft) (path : List String) (item : Value) : Option Draft := do
  return { draft with root := ← draft.root.within (·.define path item) draft.header }

def Draft.enter (draft : Draft) (opening : String → Entries → Option Entries) (path : List String) :
    Option Draft := do
  let last ← path.getLast?
  return ⟨← draft.root.within (opening last) path.dropLast, path⟩

/-- One line: a header, a key and its value, or nothing. -/
def line (draft : Draft) (cs : List Char) : Option (Draft × List Char) := do
  match skipBlanks cs with
  | '[' :: '[' :: rest =>
    let (path, rest) ← key rest
    match rest with
    | ']' :: ']' :: rest => return (← draft.enter Entries.openRepeated path, ← endOfLine rest)
    | _ => none
  | '[' :: rest =>
    let (path, rest) ← key rest
    match rest with
    | ']' :: rest => return (← draft.enter Entries.openTable path, ← endOfLine rest)
    | _ => none
  | cs =>
    match endOfLine cs with
    | some rest => return (draft, rest)
    | none =>
      let (path, rest) ← key cs
      match rest with
      | '=' :: rest =>
        let rest := skipBlanks rest
        let (item, rest) ← value (rest.length + 1) 0 rest
        return (← draft.define path item, ← endOfLine rest)
      | _ => none

def lines : Nat → Draft → List Char → Option Draft
  | _, draft, [] => some draft
  | 0, _, _ => none
  | n + 1, draft, cs => do
    let (draft, rest) ← line draft cs
    lines n draft rest

/-- The entries of a document, or nothing when it is not well formed. A byte order mark may stand
before it. -/
def parse? (text : String) : Option Entries :=
  let cs := match text.toList with
    | '\ufeff' :: rest => rest
    | cs => cs
  (lines cs.length ⟨[], []⟩ cs).map (·.root)

end CaretContext.Toml
