import CaretContext.Php.FunctionLike

/-!
# Expressions

An expression is an operand followed by operators, read as far as its level allows. A token that
begins no operand stands for one all the same, so that what is being typed keeps its place; only
some tokens, which more likely belong to what comes next, are left where they are.
-/

namespace CaretContext.Php

namespace Grammar

open TokenParser

/-- An operand, and whether it came from a token that begins none. Such an operand is never
called. -/
structure Operand where
  node : Node
  isStray : Bool

/-! ### Tokens that begin no operand -/

/-- Words that begin a statement, and are not taken for an operand. -/
def statementKeywords : List String :=
  ["if", "else", "elseif", "while", "do", "for", "foreach", "switch", "try", "catch", "finally",
    "class", "interface", "trait", "enum", "function", "fn", "return", "break", "continue", "goto",
    "declare", "namespace", "use", "const", "global", "abstract", "final"]

/-- Symbols that end a surrounding construct, and are not taken for an inner operand. -/
def closingSymbols : List String := [")", "]", "\x7d", ","]

/-- Whether the token is left for what surrounds the missing operand. -/
def isLeftAlone (level : Level) (t : Token) : Bool :=
  match t.kind with
  | .keyword word => statementKeywords.contains word
  | .symbol text => level != .lowest && closingSymbols.contains text
  | _ => false

/-- The operand that stands for a token that begins none. -/
def strayOperand (level : Level) : TokenParser Operand := do
  let token ← peek
  if isLeftAlone level token then
    return ⟨⟨.expression .other, .empty (← lastEnd), []⟩, true⟩
  let _ ← next
  return ⟨⟨.expression .other, token.span, []⟩, true⟩

/-! ### Simple operands -/

def leaf (kind : Kind Node) : TokenParser Node := do
  let token ← next
  return ⟨kind, token.span, []⟩

/-- A name. It is a constant unless it is called, used as a class, or stands where only a class or
the name of a variable can. -/
def nameOperand (level : Level) : TokenParser Node := do
  let token ← next
  if ← anyOf [pure (level = .instantiation || level = .instanceOf), atSymbol "(", atSymbol "::",
      inVariableName] then
    return ⟨.identifier token.text, token.span, []⟩
  return ⟨.expression .other, token.span, []⟩

/-- Keywords that are plain names in an expression, unless a form of their own begins with them. -/
def softKeywords : List String :=
  ["parent", "self", "true", "false", "null", "list", "enum", "from", "readonly", "match"]

/-- Whether the text of an operand inside a string is the name of a constant. -/
def isConstantName (text : String) : Bool :=
  text.toList.head?.any (fun c => isNameStart c || c = '\\') &&
    !magicConstants.contains (lowerCase text.toList)

/-- The word after an opening keyword, an expression and the end of what has been read. -/
def keywordExpression (g : Grammar) (form : PlainExpression) (level : Level) : TokenParser Node := do
  let word ← next
  let value ← g.expression level
  close (.expression form) word.span.start [value]

def parenthesizedConstruct (g : Grammar) (form : PlainExpression) : TokenParser Node := do
  let word ← next
  let _ ← symbol "("
  let value ← g.expression .lowest
  let _ ← symbol ")"
  close (.expression form) word.span.start [value]

def parenthesized (g : Grammar) : TokenParser Node := do
  let opener ← symbol "("
  let value ← g.expression .lowest
  let _ ← symbol ")"
  close (.expression .parenthesized) opener.span.start [value]

def issetExpression (g : Grammar) : TokenParser Node := do
  let word ← next
  let _ ← symbol "("
  let values ← bracketed ")" (g.expression .lowest)
  close (.expression .isset) word.span.start values

def exitExpression (g : Grammar) : TokenParser Node := do
  let word ← next
  let arguments ← g.optionalArguments
  close (.expression .exit) word.span.start arguments

/-! ### Arrays -/

/-- The nodes of one element: none for a skipped one, its key and value otherwise. -/
def arrayElement (g : Grammar) : TokenParser (List Node) := do
  if ← atSymbol "," then return []
  if ← skipSymbol "..." then return [← g.expression .lowest]
  let value ← g.expression .lowest
  if ← skipSymbol "=>" then return [value, ← g.expression .lowest]
  return [value]

def bracketArray (g : Grammar) : TokenParser Node := do
  let opener ← symbol "["
  let elements ← bracketed "]" g.arrayElement
  close (.expression .array) opener.span.start elements.flatten

def wordArray (g : Grammar) (form : PlainExpression) : TokenParser Node := do
  let word ← next
  let _ ← symbol "("
  let elements ← bracketed ")" g.arrayElement
  close (.expression form) word.span.start elements.flatten

/-! ### Objects -/

/-- `new` and a class, with arguments if there are any. The class is read above the level of calls,
so that the parentheses after it are the arguments. -/
def instantiation (g : Grammar) : TokenParser Node := do
  let word ← keyword "new"
  let owner ← g.expression .instantiation
  let arguments ← g.optionalArguments
  close (.expression .instantiation) word.span.start (owner :: arguments)

/-- Whether the token after `new` begins the declaration of a class. -/
def beginsAnonymousClass (t : Token) : Bool :=
  t.isKeyword "class" || t.isSymbol "#[" || (isModifier t && !t.isKeyword "static")

def Argument.value? (argument : Argument) : Option Node :=
  match argument.form, argument.node.rest with
  | .plain, value :: _ => some value
  | .named, value :: _ => some value
  | _, _ => none

def onlyValue? : List Argument → Option Node
  | [argument] => Argument.value? argument
  | _ => none

/-- `clone` before a parenthesis takes arguments like a call, and is one unless they are a single
value. -/
def cloneCall (g : Grammar) : TokenParser Node := do
  let word ← next
  let opener ← symbol "("
  let arguments ← enclosed ")" (g.argument true)
  match onlyValue? arguments with
  | some value =>
    let operand ← close (.expression .parenthesized) opener.span.start [value]
    close (.expression .clone) word.span.start [operand]
  | none =>
    close (.functionCall ⟨.identifier word.text, word.span, []⟩ (arguments.map (·.node)))
      word.span.start []

/-! ### Match -/

def armConditions (g : Grammar) : TokenParser (List Node) := do
  if ← skipKeyword "default" then return []
  commaSeparated (·.isSymbol "=>") (g.expression .lowest)

def matchArm (g : Grammar) : TokenParser Node := do
  let start ← startOfNext
  let conditions ← g.armConditions
  let _ ← symbol "=>"
  let result ← g.expression .lowest
  close (.glue .matchArm) start (conditions ++ [result])

def matchExpression (g : Grammar) : TokenParser Node := do
  let word ← keyword "match"
  let _ ← symbol "("
  let subject ← g.expression .lowest
  let _ ← symbol ")"
  let _ ← symbol "\x7b"
  let arms ← bracketed "\x7d" g.matchArm
  close (.expression .matchArms) word.span.start (subject :: arms)

/-! ### Yield -/

/-- What is yielded: the values of another generator, nothing, a value, or a key and a value. Only the
end of the statement shows that it is nothing. -/
def yieldOperands (g : Grammar) : TokenParser (List Node) := do
  if ← skipKeyword "from" then return [← g.expression .yieldFrom]
  if ← nextIs isTerminator then return []
  let value ← g.expression .yieldValue
  if ← skipSymbol "=>" then return [value, ← g.expression .yieldValue]
  return [value]

def yieldExpression (g : Grammar) : TokenParser Node := do
  let word ← keyword "yield"
  let children ← g.yieldOperands
  close (.expression .yieldValue) word.span.start children

/-! ### Strings -/

/-- The member after an access operator. Where no member follows it is the empty name at the end of
the operator. -/
def selector (g : Grammar) (operator : Token) : TokenParser (Member Node) := do
  let token ← peek
  if isWord token then
    let _ ← next
    return .named token.text token.span
  if isVariableStart token then return .variable (← g.anyVariable)
  if token.isSymbol "\x7b" then
    let _ ← next
    let value ← g.expression .lowest
    let _ ← symbol "\x7d"
    let text := (g.source.text? ⟨token.span.start, ← reach⟩).getD ""
    return .expression text value
  return .named "" (.empty operator.span.stop)

/-- An expression inside a string, where the bare name of a constant as a key is that name. -/
def unquotedKey (source : Source) (node : Node) : Node :=
  match node with
  | ⟨.expression .arrayAccess, span, [array, ⟨.expression .other, place, []⟩]⟩ =>
    let name := (source.text? place).getD ""
    if isConstantName name then
      ⟨.expression .arrayAccess, span, [array, ⟨.identifier name, place, []⟩]⟩
    else node
  | _ => node

/-- The expressions in a string up to its closing token, which is taken. -/
def stringParts (g : Grammar) (closes : Token → Bool) : TokenParser (List Node) :=
  repeating [] fun nodes => do
    let token ← peek
    if closes token then
      let _ ← next
      return .stop nodes.reverse
    if token.kind = .stringPart then
      let _ ← next
      return .again nodes
    if token.isSymbol "\x7b" then
      let _ ← next
      let value ← g.expression .lowest
      let _ ← symbol "\x7d"
      return .again (value :: nodes)
    let value ← asStringPart (g.expression .lowest)
    return .again (unquotedKey g.source value :: nodes)

/-- A string with interpolation, from its opening token to its closing one. -/
def compositeString (g : Grammar) (form : PlainExpression) (closes : Token → Bool) : TokenParser Node := do
  let opener ← next
  let parts ← g.stringParts closes
  close (.expression form) opener.span.start parts

/-! ### Operands -/

/-- A prefix operator and its operand, which is read at the operator's own level. -/
def prefixOperation (g : Grammar) (level : Level) : TokenParser Node := do
  let operator ← next
  let operand ← g.expression level
  close (.expression .unaryPrefix) operator.span.start [operand]

/-- Whether `true`, `false` or `null` before the token is a name and not a value. -/
def makesName (t : Token) : Bool :=
  t.isSymbol "(" || t.isSymbol "[" || t.isSymbol "::" || t.isSymbol "->" || t.isSymbol "?->"

/-- A keyword that begins no operand. Inside a string it is a name. -/
def strayKeyword (level : Level) : TokenParser Operand := do
  if ← inString then return ⟨← nameOperand level, false⟩
  strayOperand level

def plain (p : TokenParser Node) : TokenParser Operand := return ⟨← p, false⟩

/-- `true`, `false` or `null`, which may be the name of something. -/
def literalWord (level : Level) (called : Bool) : TokenParser Operand := do
  if ← allOf [pure !(called && level = .instantiation), nextIs makesName 1] then
    plain (nameOperand level)
  else plain (leaf (.expression .literal))

/-- A reference to a class by `self` or `parent`, which may be the name of a function. -/
def classWord (level : Level) (called : Bool) (form : PlainExpression) : TokenParser Operand :=
  if called && level != .instantiation then plain (nameOperand level)
  else plain (leaf (.expression form))

/-- A function without a name, unless the word is itself a name inside a string. -/
def functionWord (g : Grammar) (level : Level) : TokenParser Operand := do
  if ← inString then plain (nameOperand level) else plain g.functionExpression

def keywordOperand (g : Grammar) (level : Level) (word : String) : TokenParser Operand := do
  let called ← atSymbol "(" 1
  match word with
  | "true" | "false" | "null" => literalWord level called
  | "self" => classWord level called .selfReference
  | "parent" => classWord level called .parentReference
  | "static" =>
    if ← anyOf [atKeyword "fn" 1, atKeyword "function" 1] then plain g.functionExpression
    else plain (leaf (.expression .staticReference))
  | "fn" | "function" => g.functionWord level
  | "new" =>
    if ← nextIs beginsAnonymousClass 1 then plain g.anonymousClass else plain g.instantiation
  | "clone" =>
    if called then plain g.cloneCall else plain (g.keywordExpression .clone .clone)
  | "print" => plain (g.keywordExpression .print .print)
  | "throw" => plain (g.keywordExpression .throwException .lowest)
  | "include" | "include_once" | "require" | "require_once" =>
    plain (g.keywordExpression .includeFile .lowest)
  | "yield" => plain g.yieldExpression
  | "isset" => plain g.issetExpression
  | "empty" => plain (g.parenthesizedConstruct .empty)
  | "eval" => plain (g.parenthesizedConstruct .eval)
  | "exit" | "die" => plain g.exitExpression
  | "match" => if called then plain g.matchExpression else plain (nameOperand level)
  | "list" => if called then plain (g.wordArray .list) else plain (nameOperand level)
  | "array" => if called then plain (g.wordArray .array) else strayKeyword level
  | "unset" => fail
  | _ =>
    if magicConstants.contains word then plain (leaf (.expression .other))
    else if softKeywords.contains word then plain (nameOperand level)
    else strayKeyword level

/-- An operand without the operators after it. The token after its first one is looked at before that
is taken. -/
def operand (g : Grammar) (level : Level) : TokenParser Operand := do
  let token ← peek
  let _ ← peekAt? 1
  if let some own := token.prefixLevel? then return ← plain (g.prefixOperation own)
  if isVariableStart token then return ← plain g.anyVariable
  match token.kind with
  | .name | .qualifiedName | .rootedName => plain (nameOperand level)
  | .number | .string => plain (leaf (.expression .literal))
  | .unclosedString =>
    let _ ← next
    fail
  | .documentStart => plain (g.compositeString .interpolatedString (·.kind = .documentEnd))
  | .symbol "\"" => plain (g.compositeString .interpolatedString (·.isSymbol "\""))
  | .symbol "`" => plain (g.compositeString .shellExecute (·.isSymbol "`"))
  | .symbol "[" => plain g.bracketArray
  | .symbol "(" => plain g.parenthesized
  | .symbol "#[" => plain g.functionExpression
  | .keyword word => g.keywordOperand level word
  | _ => strayOperand level

/-! ### Operators after an operand -/

/-- A member access, or a call of the member where a call may follow. -/
def objectAccess (g : Grammar) (level : Level) (receiver : Node) (operator : AccessOperator) :
    TokenParser Node := do
  let token ← next
  let member ← g.selector token
  if ← allOf [pure (level ≤ .call), atSymbol "("] then
    let arguments ← g.argumentList (operator != .nullSafe)
    close (.methodCall receiver operator member (arguments.map (·.node))) receiver.span.start []
  else close (.propertyAccess receiver operator member) receiver.span.start []

/-- What follows a class and `::`: a call, a property or a constant. -/
def classAccess (g : Grammar) (level : Level) (owner : Node) : TokenParser Node := do
  let token ← next
  let member ← g.selector token
  if ← allOf [pure (level ≤ .call), atSymbol "("] then
    let arguments ← g.argumentList true
    close (.methodCall owner .static member (arguments.map (·.node))) owner.span.start []
  else match member with
    | .variable ⟨.variable name, _, _⟩ => close (.staticPropertyAccess owner name) owner.span.start []
    | _ => close (.expression .classConstantAccess) owner.span.start [owner]

/-- An element of an array, or the place after its last one. -/
def elementAccess (g : Grammar) (array : Node) : TokenParser Node := do
  let _ ← next
  if ← skipSymbol "]" then close (.expression .arrayAccess) array.span.start [array]
  else
    let key ← g.expression .lowest
    let _ ← symbol "]"
    close (.expression .arrayAccess) array.span.start [array, key]

def postfixOperation (g : Grammar) (level : Level) (operand : Node) (token : Token) : TokenParser Node := do
  match token.kind with
  | .symbol "(" =>
    let arguments ← g.argumentList true
    close (.functionCall operand (arguments.map (·.node))) operand.span.start []
  | .symbol "[" => g.elementAccess operand
  | .symbol "->" => g.objectAccess level operand .arrow
  | .symbol "?->" => g.objectAccess level operand .nullSafe
  | .symbol "::" => g.classAccess level operand
  | _ =>
    let _ ← next
    close (.expression .unaryPostfix) operand.span.start [operand]

/-- Whether a prefix operation counts its operand up or down, by the two characters it starts with. -/
def isStep (source : Source) (span : Span) : Bool :=
  let operator := source.text? ⟨span.start, span.start + 2⟩
  operator = some "++" || operator = some "--"

/-- Assigns the value to the rightmost operand of a unary, binary or conditional expression, and to
any other expression as a whole. Every construct passed on the way grows to the end of the value. An
operand that is counted up or down is not split off. -/
def assignTo (source : Source) (value : Node) (target : Node) : Node :=
  match target with
  | ⟨.expression .unaryPrefix, span, [operand]⟩ =>
    if isStep source span then
      ⟨.expression .assignment, span.through value.span, [target, value]⟩
    else
      ⟨.expression .unaryPrefix, span.through value.span, [assignTo source value operand]⟩
  | ⟨.expression .binary, span, [left, right]⟩ =>
    ⟨.expression .binary, span.through value.span, [left, assignTo source value right]⟩
  | ⟨.expression .conditional, span, [condition, right]⟩ =>
    ⟨.expression .conditional, span.through value.span, [condition, assignTo source value right]⟩
  | ⟨.expression .conditional, span, [condition, middle, right]⟩ =>
    ⟨.expression .conditional, span.through value.span,
      [condition, middle, assignTo source value right]⟩
  | target => ⟨.expression .assignment, target.span.through value.span, [target, value]⟩
termination_by sizeOf target

/-- The middle of a conditional, which a short one lacks. -/
def conditionalMiddle (g : Grammar) (short : Bool) : TokenParser (List Node) := do
  if short then return []
  return [← g.expression .lowest]

/-- A conditional after its condition. That its middle is left out is seen before the question mark is
taken. -/
def conditional (g : Grammar) (condition : Node) : TokenParser Node := do
  let short ← atSymbol ":" 1
  let _ ← next
  let middle ← g.conditionalMiddle short
  let _ ← symbol ":"
  let right ← g.expression .conditional
  close (.expression .conditional) condition.span.start (condition :: middle ++ [right])

def infixOperation (g : Grammar) (left : Node) (operator : Infix) : TokenParser Node := do
  match operator with
  | .conditional => g.conditional left
  | .assignment =>
    let token ← next
    let byReference ← allOf [pure (token.isSymbol "="), atSymbol "&"]
    let value ← g.expression (if byReference then .reference else .assignment)
    return assignTo g.source value left
  | .pipe =>
    let _ ← next
    let right ← g.expression .pipe
    close (.expression .pipe) left.span.start [left, right]
  | .binary level =>
    let _ ← next
    let right ← g.expression level
    close (.expression .binary) left.span.start [left, right]

/-- Whether an infix operator of level `own` is part of an expression of the given level. -/
def admits (level own : Level) : Bool := level < own || (level = own && own.groupsRight)

/-- The expression that an operand grows into with the operators after it. -/
def operators (g : Grammar) (level : Level) (first : Operand) : TokenParser Node :=
  repeating first fun operand => do
    let some token ← peek? | return .stop operand.node
    if let some own := token.postfixLevel? then
      if own < level || (operand.isStray && token.isSymbol "(") then return .stop operand.node
      return .again ⟨← g.postfixOperation level operand.node token, false⟩
    if let some operator := token.infix? then
      if admits level operator.level then
        return .again ⟨← g.infixOperation operand.node operator, false⟩
    return .stop operand.node

/-- An expression of operators no looser than the level. -/
def expressionStep (g : Grammar) (level : Level) : TokenParser Node := do
  g.operators level (← g.operand level)

end Grammar

end CaretContext.Php
