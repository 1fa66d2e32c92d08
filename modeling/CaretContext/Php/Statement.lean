import CaretContext.Php.Expression

/-!
# Statements

A statement gives the nodes it adds to what surrounds it. Blocks add those of their statements; tags
and empty statements add none. The clauses of a statement are nodes of their own.
-/

namespace CaretContext.Php

namespace Grammar

open TokenParser

def finishStatement (form : PlainStatement) (start : Nat) (children : List Node) :
    TokenParser Statements := do
  return [← close (.statement form) start children]

def finishControlFlow (form : ControlFlow) (start : Nat) (children : List Node) :
    TokenParser Statements := do
  return [← close (.controlFlow form) start children]

def declaration (p : TokenParser Node) : TokenParser Statements := return [← p]

/-- An expression in parentheses, as conditions are written. -/
def condition (g : Grammar) : TokenParser Node := do
  let _ ← symbol "("
  let value ← g.expression .lowest
  let _ ← symbol ")"
  return value

/-! ### Statement lists with words around them -/

/-- Statements up to one of the words. A failure is not recovered from. -/
def statementsUntil (g : Grammar) (ends : Token → Bool) : TokenParser Statements :=
  repeating [] fun groups => do
    if ends (← peek) then return .stop groups.reverse.flatten
    return .again ((← forward g.statement) :: groups)

def isOneOf (words : List String) (t : Token) : Bool :=
  match t.kind with
  | .keyword word => words.contains word
  | _ => false

/-- The body of a loop or directive: one statement, or after a colon all up to the closing word. -/
def body (g : Grammar) (endWord : String) : TokenParser Statements := do
  if ← skipSymbol ":" then
    let nodes ← g.statementsUntil (·.isKeyword endWord)
    let _ ← keyword endWord
    terminator
    return nodes
  g.statement

/-! ### Conditions and loops -/

/-- A further condition and what it leads to, from the word at the front on. -/
def elseIfClause (g : Grammar) (body : TokenParser Statements) (start : Nat) : TokenParser Node := do
  let _ ← next
  let test ← g.condition
  let nodes ← body
  close (.statement .elseIfClause) start (test :: nodes)

/-- What no condition led to, from the word at the front on. -/
def elseClause (body : TokenParser Statements) (start : Nat) : TokenParser Node := do
  let _ ← next
  let nodes ← body
  close (.statement .elseClause) start nodes

/-- The clauses after the first statement of a conditional without colons. -/
def plainClauses (g : Grammar) : TokenParser Statements :=
  repeating [] fun clauses => do
    let some token ← peek? | return .stop clauses.reverse
    let start := token.span.start
    if token.isKeyword "elseif" then
      return .again ((← g.elseIfClause g.statement start) :: clauses)
    if token.isKeyword "else" then
      return .stop ((← elseClause g.statement start) :: clauses).reverse
    return .stop clauses.reverse

/-- The statements of a branch with a colon, up to one of the words. -/
def branch (g : Grammar) (ends : List String) : TokenParser Statements := do
  let _ ← symbol ":"
  g.statementsUntil (isOneOf ends)

/-- The words that end a branch which others may follow. -/
def branchWords : List String := ["elseif", "else", "endif"]

/-- The clauses after the first branch of a conditional with colons. -/
def colonClauses (g : Grammar) : TokenParser Statements :=
  repeating [] fun clauses => do
    let token ← peek
    let start := token.span.start
    if token.isKeyword "elseif" then
      return .again ((← g.elseIfClause (g.branch branchWords) start) :: clauses)
    if token.isKeyword "else" then
      return .stop ((← elseClause (g.branch ["endif"]) start) :: clauses).reverse
    return .stop clauses.reverse

def ifStatement (g : Grammar) (start : Nat) : TokenParser Statements := do
  let _ ← next
  let test ← g.condition
  if ← atSymbol ":" then
    let nodes ← g.branch branchWords
    let clauses ← g.colonClauses
    let _ ← keyword "endif"
    terminator
    finishControlFlow .ifElse start (test :: nodes ++ clauses)
  else
    let nodes ← g.statement
    let clauses ← g.plainClauses
    finishControlFlow .ifElse start (test :: nodes ++ clauses)

def whileStatement (g : Grammar) (start : Nat) : TokenParser Statements := do
  let _ ← next
  let test ← g.condition
  let nodes ← g.body "endwhile"
  finishControlFlow .whileLoop start (test :: nodes)

def doWhileStatement (g : Grammar) (start : Nat) : TokenParser Statements := do
  let _ ← next
  let nodes ← g.statement
  let _ ← keyword "while"
  let test ← g.condition
  terminator
  finishControlFlow .doWhileLoop start (nodes ++ [test])

/-- Expressions with commas between them, up to the symbol, which is taken. -/
def expressionsBefore (g : Grammar) (closer : String) : TokenParser (List Node) := do
  let nodes ← commaSeparated (·.isSymbol closer) (g.expression .lowest)
  let _ ← symbol closer
  return nodes

def forStatement (g : Grammar) (start : Nat) : TokenParser Statements := do
  let _ ← next
  let _ ← symbol "("
  let initial ← g.expressionsBefore ";"
  let tests ← g.expressionsBefore ";"
  let steps ← g.expressionsBefore ")"
  let nodes ← g.body "endfor"
  finishControlFlow .forLoop start (initial ++ tests ++ steps ++ nodes)

/-- What each round of a loop over a collection is assigned to: a value, or a key and a value. -/
def foreachTarget (g : Grammar) : TokenParser (List Node) := do
  let first ← g.expression .lowest
  if ← skipSymbol "=>" then return [first, ← g.expression .lowest]
  return [first]

def foreachStatement (g : Grammar) (start : Nat) : TokenParser Statements := do
  let _ ← next
  let _ ← symbol "("
  let collection ← g.expression .lowest
  let _ ← keyword "as"
  let target ← g.foreachTarget
  let _ ← symbol ")"
  let nodes ← g.body "endforeach"
  finishControlFlow .foreachLoop start (collection :: target ++ nodes)

/-! ### Switch -/

def caseSeparator : TokenParser Unit := do
  let _ ← nextSuchThat fun t => t.isSymbol ":" || t.isSymbol ";"

/-- Whether the statements of a case end at the token. -/
def isCaseEnd (t : Token) : Bool := t.isSymbol "\x7d" || isOneOf ["case", "default", "endswitch"] t

def caseValue (g : Grammar) : TokenParser (List Node) := do
  if ← skipKeyword "default" then return []
  let _ ← keyword "case"
  return [← g.expression .lowest]

def switchCase (g : Grammar) : TokenParser Node := do
  let start ← startOfNext
  let value ← g.caseValue
  caseSeparator
  let nodes ← g.statementsUntil isCaseEnd
  close (.statement .caseClause) start (value ++ nodes)

def optionalTerminator : TokenParser Unit := do
  if ← nextIs isTerminator then terminator

/-- The cases of a switch up to its closing token, which is taken. A mark that ends a statement may
stand before them. -/
def switchCases (g : Grammar) (closes : Token → Bool) : TokenParser (List Node) := do
  optionalTerminator
  let cases ← manyWhile (fun t => !closes t) g.switchCase
  let _ ← expect closes
  return cases

def switchStatement (g : Grammar) (start : Nat) : TokenParser Statements := do
  let _ ← next
  let subject ← g.condition
  if ← skipSymbol ":" then
    let cases ← g.switchCases (·.isKeyword "endswitch")
    terminator
    finishControlFlow .switchCase start (subject :: cases)
  else
    let _ ← symbol "\x7b"
    let cases ← g.switchCases (·.isSymbol "\x7d")
    finishControlFlow .switchCase start (subject :: cases)

/-! ### Try -/

/-- The variable of a caught exception, which may be missing. -/
def caughtVariable : TokenParser Unit := do
  if ← nextIs (·.kind = .variable) then
    let _ ← next

def catchClause (g : Grammar) : TokenParser Node := do
  let word ← keyword "catch"
  let _ ← symbol "("
  type
  caughtVariable
  let _ ← symbol ")"
  let nodes ← g.block
  close (.statement .catchClause) word.span.start nodes

def finallyClause (g : Grammar) : TokenParser (List Node) := do
  if ← atKeyword "finally" then
    let word ← next
    let nodes ← g.block
    return [← close (.statement .finallyClause) word.span.start nodes]
  return []

def tryStatement (g : Grammar) (start : Nat) : TokenParser Statements := do
  let _ ← next
  let nodes ← g.block
  let catches ← manyWhile (·.isKeyword "catch") g.catchClause
  let finally_ ← g.finallyClause
  finishControlFlow .tryCatch start (nodes ++ catches ++ finally_)

/-! ### Plain statements -/

/-- A word, expressions with commas between them, and the end. -/
def listStatement (g : Grammar) (form : PlainStatement) (start : Nat) : TokenParser Statements := do
  let _ ← next
  let values ← commaSeparated isTerminator (g.expression .lowest)
  terminator
  finishStatement form start values

def valueBeforeEnd (g : Grammar) : TokenParser (List Node) := do
  if isTerminator (← peek) then return []
  return [← g.expression .lowest]

/-- A word, an expression that may be missing, and the end. The expression is kept on request. -/
def optionalValueStatement (g : Grammar) (form : PlainStatement) (keep : Bool) (start : Nat) :
    TokenParser Statements := do
  let _ ← next
  let value ← g.valueBeforeEnd
  terminator
  finishStatement form start (if keep then value else [])

def globalStatement (g : Grammar) (start : Nat) : TokenParser Statements := do
  let _ ← next
  let names ← commaSeparated isTerminator g.anyVariable
  terminator
  finishStatement .globalVariables start names

/-- A variable and its initial value, of which only the value is kept. -/
def staticItem (g : Grammar) : TokenParser (List Node) := do
  let _ ← expect (·.kind = .variable)
  g.optionalValue

def staticStatement (g : Grammar) (start : Nat) : TokenParser Statements := do
  let _ ← next
  let values ← commaSeparated isTerminator g.staticItem
  terminator
  finishStatement .staticVariables start values.flatten

def unsetStatement (g : Grammar) (start : Nat) : TokenParser Statements := do
  let _ ← next
  let _ ← symbol "("
  let values ← bracketed ")" (g.expression .lowest)
  terminator
  finishStatement .unset start values

def declareItem (g : Grammar) : TokenParser Node := do
  let _ ← wordName
  let _ ← symbol "="
  g.expression .lowest

def declareStatement (g : Grammar) (start : Nat) : TokenParser Statements := do
  let _ ← next
  let _ ← symbol "("
  let values ← enclosed ")" g.declareItem
  let nodes ← g.body "enddeclare"
  finishStatement .declareDirective start (values ++ nodes)

def constantStatement (g : Grammar) (start : Nat) : TokenParser Statements := do
  let _ ← next
  let _ ← commaSeparated isTerminator g.constantItem
  terminator
  finishStatement .constant start []

/-! ### Imports and namespaces -/

/-- Whether the token names the kind of thing that is imported. -/
def isImportKind (t : Token) : Bool := t.isKeyword "function" || t.isKeyword "const"

def aliasedName : TokenParser Unit := do
  let _ ← pathName
  if ← skipKeyword "as" then
    let _ ← wordName

/-- A name and its alias, after the kind of thing that is imported, if that is named. -/
def kindedName : TokenParser Unit := do
  if ← nextIs isImportKind then
    let _ ← next
  aliasedName

def nameGroup (item : TokenParser Unit) : TokenParser Unit := do
  let _ ← pathName
  let _ ← symbol "\\"
  let _ ← symbol "\x7b"
  let _ ← enclosed "\x7d" item

/-- Imported names: a group of them, or any number of single ones. A kind in front of a group goes
for all of it. -/
def importedNames : TokenParser Unit := do
  if ← nextIs isImportKind then
    let grouped ← atSymbol "\\" 2
    let _ ← next
    if grouped then nameGroup aliasedName
    else
      let _ ← separated aliasedName
  else if ← atSymbol "\\" 1 then nameGroup kindedName
  else
    let _ ← separated aliasedName

def useStatement (start : Nat) : TokenParser Statements := do
  let _ ← next
  importedNames
  terminator
  finishStatement .useImport start []

/-- Whether a namespace has no name, by the token after its keyword. -/
def isNamelessEnd (t : Token) : Bool := isTerminator t || t.isSymbol "\x7b"

/-- Statements up to the end of the text or a token that ends them, and the end of the last one, or of
what stands before them if there is none. One that fails is left out of both. -/
def recoveredExtent (g : Grammar) (ends : Token → Bool) : TokenParser (Statements × Nat) := do
  let stop ← reach
  repeating ([], stop) fun (groups, stop) => do
    let finish : Turn (List Statements × Nat) (Statements × Nat) :=
      .stop (groups.reverse.flatten, stop)
    let some token ← peek? | return finish
    if ends token then return finish
    match ← forward (recover g.statement) with
    | some nodes => return .again (nodes :: groups, ← reach)
    | none => return .again (groups, stop)

def namespaceName : TokenParser Unit := do
  if !(← nextIs isNamelessEnd) then
    let _ ← pathName

/-- A namespace in braces, or one that goes on to the next namespace. -/
def namespaceStatement (g : Grammar) (start : Nat) : TokenParser Statements := do
  let _ ← next
  namespaceName
  if ← atSymbol "\x7b" then
    let nodes ← g.block
    finishStatement .namespaceScope start nodes
  else
    terminator
    let (nodes, stop) ← g.recoveredExtent (·.isKeyword "namespace")
    return [⟨.statement .namespaceScope, ⟨start, stop⟩, nodes⟩]

/-! ### Other statements -/

def gotoStatement (start : Nat) : TokenParser Statements := do
  let _ ← next
  let _ ← wordName
  terminator
  finishStatement .other start []

def labelStatement (start : Nat) : TokenParser Statements := do
  let _ ← next
  let _ ← next
  finishStatement .other start []

def haltStatement (start : Nat) : TokenParser Statements := do
  let _ ← next
  let _ ← symbol "("
  let _ ← symbol ")"
  terminator
  finishStatement .other start []

def expressionStatement (g : Grammar) : TokenParser Statements := do
  let value ← g.expression .lowest
  terminator
  finishStatement .expression value.span.start [value]

def closureStatement (g : Grammar) (start : Nat) : TokenParser Statements := do
  let node ← g.unnamedFunction start
  terminator
  finishStatement .expression start [node]

def functionStatement (g : Grammar) (start : Nat) : TokenParser Statements := do
  if ← anyOf [atSymbol "(" 1, allOf [atSymbol "&" 1, atSymbol "(" 2]] then g.closureStatement start
  else declaration (g.functionDeclaration start)

/-- A declaration or a function without a name, after its attributes. -/
def attributedStatement (g : Grammar) (start : Nat) : TokenParser Statements := do
  g.attributes
  let token ← peek
  match token.kind with
  | .keyword "function" => g.functionStatement start
  | .keyword "fn" => g.closureStatement start
  | .keyword "interface" => declaration (g.interfaceDeclaration start)
  | .keyword "trait" => declaration (g.traitDeclaration start)
  | .keyword "enum" => declaration (g.enumDeclaration start)
  | .keyword "const" => g.constantStatement token.span.start
  | .keyword "class" => declaration (g.classDeclaration start)
  | _ =>
    if ← allOf [pure (token.isKeyword "static"), anyOf [atKeyword "fn" 1, atKeyword "function" 1]] then
      g.closureStatement start
    else if isModifier token then declaration (g.classDeclaration start)
    else fail

/-- Whether a modifier before the token is an operand and begins no class. -/
def makesOperand (t : Token) : Bool :=
  t.isKeyword "fn" || t.isKeyword "function" || makesName t

def modifierStatement (g : Grammar) (start : Nat) : TokenParser Statements := do
  if ← allOf [atKeyword "static", nextIs (·.kind = .variable) 1] then g.staticStatement start
  else if ← nextIs makesOperand 1 then g.expressionStatement
  else declaration (g.classDeclaration start)

/-- A label, or an expression that begins with a word. -/
def wordStatement (g : Grammar) (start : Nat) : TokenParser Statements := do
  if ← atSymbol ":" 1 then labelStatement start else g.expressionStatement

def keywordStatement (g : Grammar) (start : Nat) (word : String) : TokenParser Statements := do
  match word with
  | "if" => g.ifStatement start
  | "while" => g.whileStatement start
  | "do" => g.doWhileStatement start
  | "for" => g.forStatement start
  | "foreach" => g.foreachStatement start
  | "switch" => g.switchStatement start
  | "try" => g.tryStatement start
  | "return" => g.optionalValueStatement .returnValue true start
  | "break" => g.optionalValueStatement .breakLoop false start
  | "continue" => g.optionalValueStatement .continueLoop false start
  | "echo" => g.listStatement .echo start
  | "global" => g.globalStatement start
  | "unset" => g.unsetStatement start
  | "declare" => g.declareStatement start
  | "const" => g.constantStatement start
  | "use" => useStatement start
  | "namespace" => g.namespaceStatement start
  | "goto" => gotoStatement start
  | "__halt_compiler" => haltStatement start
  | "function" => g.functionStatement start
  | "class" => declaration (g.classDeclaration start)
  | "interface" => declaration (g.interfaceDeclaration start)
  | "trait" => declaration (g.traitDeclaration start)
  | "enum" => declaration (g.enumDeclaration start)
  | _ =>
    if modifierWords.contains word then g.modifierStatement start else g.wordStatement start

def statementStep (g : Grammar) : TokenParser Statements := do
  let token ← peek
  let start := token.span.start
  match token.kind with
  | .inlineText =>
    let _ ← next
    finishStatement .other start []
  | .openTag | .closeTag =>
    let _ ← next
    return []
  | .echoTag => g.listStatement .echo start
  | .symbol ";" =>
    let _ ← next
    return []
  | .symbol "\x7b" => g.block
  | .symbol "#[" => g.attributedStatement start
  | .keyword word => g.keywordStatement start word
  | .name => g.wordStatement start
  | _ => g.expressionStatement

/-- The statements of a whole text. Reading ends before a statement that begins with a fault. -/
def program (g : Grammar) : TokenParser Statements :=
  repeating [] fun groups => do
    let some (some _) ← recover peek? | return .stop groups.reverse.flatten
    match ← forward (recover g.statement) with
    | some nodes => return .again (nodes :: groups)
    | none => return .again groups

end Grammar

end CaretContext.Php
