import CaretContext.Php.Grammar

/-!
# Functions, classes and their members

Bodies of functions and classes are read with recovery: a statement or member that fails is left out
and reading goes on behind it.
-/

namespace CaretContext.Php

namespace Grammar

open TokenParser

/-! ### Blocks -/

/-- Statements up to the end of the text or a token that ends them. One that fails is left out. -/
def recoveredStatements (g : Grammar) (ends : Token → Bool) : TokenParser Statements :=
  repeating [] fun groups => do
    let some token ← peek? | return .stop groups.reverse.flatten
    if ends token then return .stop groups.reverse.flatten
    match ← forward (recover g.statement) with
    | some nodes => return .again (nodes :: groups)
    | none => return .again groups

def block (g : Grammar) : TokenParser Statements := do
  let _ ← symbol "\x7b"
  let nodes ← g.recoveredStatements (·.isSymbol "\x7d")
  let _ ← symbol "\x7d"
  return nodes

/-! ### Property hooks -/

/-- The body of a hook: none, an expression or a block. -/
def hookBody (g : Grammar) : TokenParser Unit := do
  if ← skipSymbol ";" then return
  if ← skipSymbol "=>" then
    let _ ← g.expression .lowest
    let _ ← symbol ";"
  else
    let _ ← g.block

def hook (g : Grammar) : TokenParser Unit := do
  g.attributes
  let _ ← skipSymbol "&"
  modifiers
  let _ ← wordName
  if ← skipSymbol "(" then
    let _ ← bracketed ")" g.parameterHead
  g.hookBody

def hooks (g : Grammar) : TokenParser Unit := do
  let _ ← symbol "\x7b"
  let _ ← manyWhile (fun t => !t.isSymbol "\x7d") g.hook
  let _ ← symbol "\x7d"

/-! ### Parameters -/

/-- One parameter. A property declared through it may have hooks. -/
def parameter (g : Grammar) : TokenParser Node := do
  let node ← g.parameterHead
  if ← atSymbol "\x7b" then g.hooks
  return node

def parameterList (g : Grammar) : TokenParser (List Node) := do
  let _ ← symbol "("
  bracketed ")" g.parameter

/-! ### Functions without a name -/

/-- The variables a closure takes from around it. Nothing of them is kept. -/
def closureUses : TokenParser Unit := do
  if ← skipKeyword "use" then
    let _ ← symbol "("
    let _ ← enclosed ")" do
      let _ ← skipSymbol "&"
      let _ ← expect (·.kind = .variable)

/-- A closure or an arrow function, after its attributes. -/
def unnamedFunction (g : Grammar) (start : Nat) : TokenParser Node := do
  let _ ← skipKeyword "static"
  if ← skipKeyword "fn" then
    let _ ← skipSymbol "&"
    let parameters ← g.parameterList
    returnType
    let _ ← symbol "=>"
    let body ← g.expression .lowest
    close (.functionLike .arrowFunction) start (parameters ++ [body])
  else
    let _ ← keyword "function"
    let _ ← skipSymbol "&"
    let parameters ← g.parameterList
    closureUses
    returnType
    let body ← g.block
    close (.functionLike .closure) start (parameters ++ body)

def functionExpression (g : Grammar) : TokenParser Node := do
  let start ← startOfNext
  g.attributes
  g.unnamedFunction start

/-! ### Class members -/

/-- The body of a method, which an abstract one lacks. -/
def methodBody (g : Grammar) : TokenParser Statements := do
  if ← skipSymbol ";" then return []
  g.block

def method (g : Grammar) (start : Nat) : TokenParser Node := do
  let _ ← keyword "function"
  let _ ← skipSymbol "&"
  let _ ← wordName
  let parameters ← g.parameterList
  returnType
  let body ← g.methodBody
  close (.functionLike .methodDeclaration) start (parameters ++ body)

def constantItem (g : Grammar) : TokenParser Unit := do
  let _ ← wordName
  let _ ← symbol "="
  let _ ← g.expression .lowest

/-- The type of a constant, which stands before its name. -/
def constantType : TokenParser Unit := do
  if !(← atSymbol "=" 1) then type

def classConstant (g : Grammar) (start : Nat) : TokenParser Node := do
  let _ ← keyword "const"
  constantType
  let _ ← separated g.constantItem
  terminator
  close (.statement .classConstant) start []

def enumCase (g : Grammar) (start : Nat) : TokenParser Node := do
  let _ ← keyword "case"
  let _ ← wordName
  let _ ← g.optionalValue
  terminator
  close (.statement .enumCase) start []

def isVisibility (t : Token) : Bool :=
  t.isKeyword "public" || t.isKeyword "protected" || t.isKeyword "private"

/-- The new visibility or name of a member of a trait, after `as`. -/
def traitAlias : TokenParser Unit := do
  let _ ← keyword "as"
  if ← nextIs isVisibility then
    let _ ← next
  if !(← nextIs isTerminator) then
    let _ ← wordName
  terminator

/-- One rule on how members of traits are taken over. Only a member that is named with its trait can
be taken instead of others. -/
def traitAdaptation : TokenParser Unit := do
  if ← atSymbol "::" 1 then
    let _ ← pathName
    let _ ← next
    let _ ← wordName
    if ← skipKeyword "insteadof" then
      let _ ← commaSeparated isTerminator pathName
      return ← terminator
  else
    let _ ← wordName
  traitAlias

/-- The rules for the traits that are used, in braces, or the end of the statement. -/
def traitRules : TokenParser Unit := do
  if ← nextIs isTerminator then terminator
  else
    let _ ← symbol "\x7b"
    let _ ← manyWhile (fun t => !t.isSymbol "\x7d") traitAdaptation
    let _ ← symbol "\x7d"

def traitUse (start : Nat) : TokenParser Node := do
  let _ ← keyword "use"
  let _ ← commaSeparated (fun t => isTerminator t || t.isSymbol "\x7b") pathName
  traitRules
  close (.statement .traitUse) start []

def propertyItem (g : Grammar) : TokenParser Unit := do
  let _ ← expect (·.kind = .variable)
  let _ ← g.optionalValue

/-- What follows the first variable of a property: its hooks, or more variables and the end. -/
def propertyEnd (g : Grammar) : TokenParser Unit := do
  if ← atSymbol "\x7b" then g.hooks
  else
    if ← skipSymbol "," then
      let _ ← separated g.propertyItem
    terminator

def property (g : Grammar) (start : Nat) : TokenParser Node := do
  let _ ← skipKeyword "var"
  optionalType
  g.propertyItem
  g.propertyEnd
  close (.statement .property) start []

def modifiedMember (g : Grammar) (start constantStart : Nat) : TokenParser Node := do
  modifiers
  let token ← peek
  match token.kind with
  | .keyword "function" => g.method start
  | .keyword "const" => g.classConstant constantStart
  | _ => g.property start

/-- One member of a class. A constant starts behind its attributes, any other member with them. -/
def classMember (g : Grammar) : TokenParser Node := do
  let start ← startOfNext
  if ← atKeyword "use" then return ← traitUse start
  g.attributes
  if ← atKeyword "case" then return ← g.enumCase start
  g.modifiedMember start (← startOfNext)

/-- Class members up to a closing brace. One that fails is left out. -/
def classMembers (g : Grammar) : TokenParser (List Node) :=
  repeating [] fun members => do
    if ← nextIs (·.isSymbol "\x7d") then return .stop members.reverse
    match ← forward (recover g.classMember) with
    | some member => return .again (member :: members)
    | none => return .again members

def classBody (g : Grammar) : TokenParser (List Node) := do
  let _ ← symbol "\x7b"
  let members ← g.classMembers
  let _ ← symbol "\x7d"
  return members

/-! ### Classes -/

def optionalNames (word : String) : TokenParser Unit := do
  if ← skipKeyword word then
    let _ ← separated pathName

/-- `new` and the declaration of a class without a name. -/
def anonymousClass (g : Grammar) : TokenParser Node := do
  let word ← keyword "new"
  g.attributes
  modifiers
  let _ ← keyword "class"
  let arguments ← g.optionalArguments
  optionalNames "extends"
  optionalNames "implements"
  let members ← g.classBody
  close (.classLike .anonymousClass) word.span.start (arguments ++ members)

def classDeclaration (g : Grammar) (start : Nat) : TokenParser Node := do
  modifiers
  let _ ← keyword "class"
  let _ ← wordName
  optionalNames "extends"
  optionalNames "implements"
  let members ← g.classBody
  close (.classLike .classDeclaration) start members

def interfaceDeclaration (g : Grammar) (start : Nat) : TokenParser Node := do
  let _ ← keyword "interface"
  let _ ← wordName
  optionalNames "extends"
  let members ← g.classBody
  close (.classLike .interfaceDeclaration) start members

def traitDeclaration (g : Grammar) (start : Nat) : TokenParser Node := do
  let _ ← keyword "trait"
  let _ ← wordName
  let members ← g.classBody
  close (.classLike .traitDeclaration) start members

def enumDeclaration (g : Grammar) (start : Nat) : TokenParser Node := do
  let _ ← keyword "enum"
  let _ ← wordName
  returnType
  optionalNames "implements"
  let members ← g.classBody
  close (.classLike .enumDeclaration) start members

def functionDeclaration (g : Grammar) (start : Nat) : TokenParser Node := do
  let _ ← keyword "function"
  let _ ← skipSymbol "&"
  let _ ← wordName
  let parameters ← g.parameterList
  returnType
  let body ← g.block
  close (.functionLike .functionDeclaration) start (parameters ++ body)

end Grammar

end CaretContext.Php
