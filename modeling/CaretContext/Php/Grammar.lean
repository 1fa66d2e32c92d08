import CaretContext.Php.Level
import CaretContext.Php.TokenParser

/-!
# Names, types, arguments and parameters

Expressions and statements contain each other. The parsers here and in the modules that follow take
both as given, in a `Grammar`, and are joined into one recursion at the end.
-/

namespace CaretContext.Php

/-- The nodes of a statement. A block gives those of its statements, and tags give none. -/
abbrev Statements := List Node

/-- The two sorts of phrase that every other one is built over. -/
structure Grammar where
  source : Source
  /-- An expression of operators no looser than the level. -/
  expression : Level → TokenParser Node
  statement : TokenParser Statements

namespace Grammar

open TokenParser

/-! ### Names -/

def isWord (t : Token) : Bool :=
  match t.kind with
  | .name => true
  | .keyword _ => true
  | _ => false

/-- Whether the token is a name, with backslashes or without. Any word serves as one. -/
def isPathName (t : Token) : Bool :=
  t.kind = .qualifiedName || t.kind = .rootedName || isWord t

def wordName : TokenParser Token := nextSuchThat isWord

def pathName : TokenParser Token := nextSuchThat isPathName

def isTerminator (t : Token) : Bool := t.isSymbol ";" || t.kind = .closeTag

/-- The end of a statement. A closing tag takes the opening tag right after it along. Where the end
is missing the statement reaches over the next token. -/
def terminator : TokenParser Unit := do
  let token ← peek
  if token.isSymbol ";" then
    let _ ← next
  else if token.kind = .closeTag then
    let _ ← next
    if ← nextIs (·.kind = .openTag) then
      let _ ← next
  else reachOver

/-! ### Types -/

/-- Words that name a type although they are keywords. -/
def typeKeywords : List String :=
  ["array", "callable", "null", "true", "false", "static", "self", "parent", "enum", "from"]

def isTypeStart (t : Token) : Bool :=
  match t.kind with
  | .name | .qualifiedName | .rootedName => true
  | .keyword word => typeKeywords.contains word
  | .symbol text => text = "?" || text = "("
  | _ => false

/-- Whether another part of a type follows. An ampersand before a variable belongs to that. -/
def typeContinues : TokenParser Bool := do
  if ← atSymbol "|" then return true
  if ← atSymbol "&" then
    return !(← nextIs (fun t => t.kind = .variable || t.isSymbol "..." || t.isSymbol "&") 1)
  return false

/-- A type. Its parentheses are counted, since nothing of it is kept. -/
def type : TokenParser Unit :=
  repeating 0 fun depth => do
    if ← skipSymbol "?" then return .again depth
    if ← skipSymbol "(" then return .again (depth + 1)
    let _ ← expect fun t => isTypeStart t
    let depth ← repeating depth fun depth => do
      if ← allOf [pure (0 < depth), skipSymbol ")"] then return .again (depth - 1)
      return .stop depth
    if ← typeContinues then
      let _ ← next
      return .again depth
    if 0 < depth then fail
    return .stop ()

def optionalType : TokenParser Unit := do
  if ← nextIs isTypeStart then type

def returnType : TokenParser Unit := do
  if ← skipSymbol ":" then type

/-! ### Variables -/

def isVariableStart (t : Token) : Bool :=
  t.kind = .variable || t.isSymbol "$" || t.isSymbol "$\x7b"

def textAfterFirst (source : Source) (span : Span) : String :=
  String.ofList (((source.slice? span).getD []).drop 1)

/-- The tokens of a variable: any number of dollar signs, then a plain variable or an expression in
braces. -/
def variableTokens (g : Grammar) : TokenParser Unit :=
  repeating () fun _ => do
    let token ← expect isVariableStart
    if token.isSymbol "$" then return .again ()
    if token.isSymbol "$\x7b" then
      let _ ← asVariableName (g.expression .lowest)
      let _ ← symbol "\x7d"
    return .stop ()

/-- A variable: a plain one, one named by another, or one named by an expression in braces. The name
is what stands after the first dollar sign. -/
def anyVariable (g : Grammar) : TokenParser Node := do
  let start ← startOfNext
  g.variableTokens
  let span : Span := ⟨start, ← reach⟩
  return ⟨.variable (textAfterFirst g.source span), span, []⟩

/-! ### Arguments -/

/-- How an argument is passed. -/
inductive ArgumentForm where
  | plain
  | named
  | spread
  | placeholder
deriving DecidableEq, Repr

structure Argument where
  form : ArgumentForm
  node : Node

def isArgumentEnd (t : Token) : Bool := t.isSymbol "," || t.isSymbol ")"

def argumentValue (g : Grammar) (form : ArgumentForm) (start : Nat) : TokenParser Argument := do
  let value ← g.expression .lowest
  return ⟨form, ← close (.glue .argument) start [value]⟩

def placeholder (start : Nat) : TokenParser Argument := do
  let _ ← next
  return ⟨.placeholder, ← close (.glue .argument) start []⟩

/-- One argument. With `withHoles`, the call may leave arguments open. -/
def argument (g : Grammar) (withHoles : Bool) : TokenParser Argument := do
  let token ← peek
  let start := token.span.start
  if ← allOf [pure (isWord token), atSymbol ":" 1] then
    let _ ← next
    let _ ← next
    if ← allOf [pure withHoles, atSymbol "?"] then placeholder start
    else g.argumentValue .named start
  else if token.isSymbol "..." then
    if ← allOf [pure withHoles, nextIs isArgumentEnd 1] then placeholder start
    else
      let _ ← next
      g.argumentValue .spread start
  else if withHoles && token.isSymbol "?" then placeholder start
  else
    let value ← g.expression .lowest
    return ⟨.plain, ⟨.glue .argument, value.span, [value]⟩⟩

def argumentList (g : Grammar) (withHoles : Bool) : TokenParser (List Argument) := do
  let _ ← symbol "("
  bracketed ")" (g.argument withHoles)

/-- The nodes of an argument list, which may be left out. -/
def optionalArguments (g : Grammar) : TokenParser (List Node) := do
  if ← atSymbol "(" then return (← g.argumentList false).map (·.node)
  return []

/-! ### Attributes -/

def attributeGroup (g : Grammar) : TokenParser Unit := do
  let _ ← symbol "#["
  let _ ← bracketed "]" do
    let _ ← pathName
    let _ ← g.optionalArguments

def attributes (g : Grammar) : TokenParser Unit := do
  let _ ← manyWhile (·.isSymbol "#[") g.attributeGroup

/-! ### Parameters -/

def modifierWords : List String :=
  ["abstract", "final", "private", "protected", "public", "readonly", "static", "private(set)",
    "protected(set)", "public(set)"]

def isModifier (t : Token) : Bool :=
  match t.kind with
  | .keyword word => modifierWords.contains word
  | _ => false

def modifiers : TokenParser Unit := do
  let _ ← manyWhile isModifier next

def optionalValue (g : Grammar) : TokenParser (List Node) := do
  if ← skipSymbol "=" then return [← g.expression .lowest]
  return []

def optionalSymbol (text : String) : TokenParser (Option Token) := do
  if ← atSymbol text then return some (← next)
  return none

/-- The parts of a parameter in front of its hooks. It starts with its attributes, modifiers or type;
without these the points before the variable count as its start ahead of the ampersand. -/
def parameterHead (g : Grammar) : TokenParser Node := do
  let start ← startOfNext
  g.attributes
  modifiers
  optionalType
  let bare := (← startOfNext) = start
  let ampersand ← optionalSymbol "&"
  let points ← optionalSymbol "..."
  let name ← expect (·.kind = .variable)
  let value ← g.optionalValue
  let first := (points.orElse fun _ => ampersand).getD name
  close (.glue .parameter) (if bare then first.span.start else start) value

end Grammar

end CaretContext.Php
