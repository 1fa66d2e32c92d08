import CaretContext.Php.Lexeme.Extent

/-!
# Lexemes

A text is cut into lexemes: tokens, gaps between them, and faults, which are text that begins no
token. The lexemes joined together are the text. The cutting has a mode, since program text, strings
and text outside the program follow different rules, and remembers the strings it is inside of while
an interpolated expression is read. Inside a string every interpolated expression comes after a piece
of literal text, which may be empty.

What a reader meets of the lexemes are items: the tokens and the faults. A fault inside an
interpolated expression loses the tokens of that expression and of every later one.
-/

namespace CaretContext.Php

/-- How text that begins no token shows to a reader. -/
inductive Fault where
  /-- Reading it fails once, and then goes on behind it. -/
  | passing
  /-- It looks once like the end of the text, and reading goes on behind it. -/
  | interruption
  /-- Reading does not get past it. -/
  | lasting
deriving DecidableEq, Repr

inductive LexemeKind where
  | token (kind : TokenKind)
  /-- White space or a comment. -/
  | gap
  /-- Text that begins no token. -/
  | fault (fault : Fault)
deriving DecidableEq, Repr

/-- A piece of text and what it is. -/
structure Lexeme where
  kind : LexemeKind
  chars : List Char
  /-- For a piece of an interpolated expression, how many characters of text were left where the
  outermost such expression around it began. -/
  inside : Option Nat
deriving DecidableEq, Repr

/-- What is expected after the word that ends the program. -/
inductive HaltStage where
  | opener
  | closer
  | terminator
deriving DecidableEq, Repr

/-- What the text at hand is read as. -/
inductive LexMode where
  /-- The beginning of the text, where a line for the system's loader may stand. -/
  | opening
  | outside
  | program
  /-- Inside a string with interpolation, up to the quote, and whether right behind its text. -/
  | quoted (quote : Char) (afterText : Bool)
  /-- Inside a document, and whether right behind its text in the same line. -/
  | document (interpolates : Bool) (label : List Char) (afterText : Bool)
  /-- After the word that ends the program, in the middle of its call. -/
  | halting (stage : HaltStage)
  /-- After the end of the program. -/
  | halted
deriving DecidableEq, Repr

/-- An interpolated expression being read: how many characters of text are left at its start and at
its end, whether braces enclose it, and the mode to return to. -/
structure Interpolation where
  start : Nat
  stop : Nat
  isBraced : Bool
  mode : LexMode
deriving DecidableEq, Repr

/-- The mode, and the interpolated expressions being read, the innermost first. -/
structure LexState where
  mode : LexMode
  pending : List Interpolation
deriving DecidableEq, Repr

/-- The next lexeme: its kind, its length and the mode after it. -/
structure Cut where
  kind : LexemeKind
  length : Nat
  mode : LexMode
deriving DecidableEq, Repr

def openingCut (cs : List Char) : Option Cut :=
  if startsWord ['<', '?', 'p', 'h', 'p'] (cs.take 5) then some ⟨.token .openTag, 5, .program⟩
  else if ['<', '?', '='].isPrefixOf cs then some ⟨.token .echoTag, 3, .program⟩
  else if ['<', '?'].isPrefixOf cs then some ⟨.token .openTag, 2, .program⟩
  else none

def outsideLength : List Char → Nat
  | '<' :: '?' :: _ => 0
  | _ :: cs => outsideLength cs + 1
  | [] => 0

def outsideCut (cs : List Char) : Cut :=
  (openingCut cs).getD ⟨.token .inlineText, outsideLength cs, .outside⟩

/-- A string that begins with the quote at the front, whose first `skipped` characters precede the
quote. -/
def quoteCut (quote : Char) (skipped : Nat) (cs : List Char) : Cut :=
  if quote = '"' && !isPlainQuoted cs then
    ⟨.token (.symbol "\""), skipped + 1, .quoted quote false⟩
  else match quotedLength? quote false cs with
    | some n => ⟨.token .string, skipped + 1 + n, .program⟩
    | none => ⟨.token .unclosedString, skipped + 1 + cs.length, .program⟩

/-- A document, if one opens after `skipped` characters and `<<<`. -/
def documentCut? (skipped : Nat) (cs : List Char) : Option Cut :=
  (documentOpening? cs).map fun d =>
    ⟨.token .documentStart, skipped + 3 + d.length, .document d.interpolates d.label false⟩

/-- The set modifiers are words of their own, parentheses included. -/
def setModifiers : List String := ["private(set)", "protected(set)", "public(set)"]

/-- A word, which may be a keyword, a name or a path of names. -/
def wordCut (cs : List Char) : Cut :=
  let length := pathLength cs
  let word := cs.take length
  match setModifiers.find? fun m => startsWord m.toList (cs.take m.length) with
  | some m => ⟨.token (.keyword m), m.length, .program⟩
  | none =>
    if cs.head? = some '\\' then ⟨.token .rootedName, length, .program⟩
    else if word.contains '\\' then ⟨.token .qualifiedName, length, .program⟩
    else if lowerCase word = "__halt_compiler" then
      ⟨.token (wordKind word), length, .halting .opener⟩
    else ⟨.token (wordKind word), length, .program⟩

def numberCut (cs : List Char) : Cut :=
  let length := numberLength cs
  let kind : LexemeKind :=
    if isMalformedNumber (cs.take length) then .fault .passing else .token .number
  ⟨kind, length, .program⟩

def faultCut : Cut := ⟨.fault .passing, 1, .program⟩

def symbolCut (cs : List Char) : Cut :=
  match symbols.find? fun s => s.toList.isPrefixOf cs with
  | some s => ⟨.token (.symbol s), s.length, .program⟩
  | none => faultCut

def programCut (cs : List Char) : Cut :=
  match cs with
  | '?' :: '>' :: _ => ⟨.token .closeTag, 2, .outside⟩
  | '/' :: '*' :: rest =>
    match blockCommentLength? rest with
    | some n => ⟨.gap, n + 2, .program⟩
    | none => ⟨.fault .passing, cs.length, .program⟩
  | '/' :: '/' :: rest => ⟨.gap, lineCommentLength rest + 2, .program⟩
  | '#' :: '[' :: _ => symbolCut cs
  | '#' :: rest => ⟨.gap, lineCommentLength rest + 1, .program⟩
  | '\'' :: rest => quoteCut '\'' 0 rest
  | '"' :: rest => quoteCut '"' 0 rest
  | '`' :: _ => ⟨.token (.symbol "`"), 1, .quoted '`' false⟩
  | '<' :: '<' :: '<' :: rest => (documentCut? 0 rest).getD (symbolCut cs)
  | '(' :: _ =>
    match castLength? cs with
    | some n => ⟨.token .cast, n, .program⟩
    | none => symbolCut cs
  | '.' :: d :: _ => if d.isDigit then numberCut cs else symbolCut cs
  | '$' :: c :: rest =>
    if isNameStart c then ⟨.token .variable, runLength isNamePart (c :: rest) + 1, .program⟩
    else symbolCut cs
  | '\\' :: c :: _ => if isNameStart c then wordCut cs else symbolCut cs
  | b :: '\'' :: rest =>
    if b = 'b' || b = 'B' then quoteCut '\'' 1 rest else plainCut cs b
  | b :: '"' :: rest =>
    if b = 'b' || b = 'B' then quoteCut '"' 1 rest else plainCut cs b
  | b :: '<' :: '<' :: '<' :: rest =>
    if b = 'b' || b = 'B' then (documentCut? 1 rest).getD faultCut else plainCut cs b
  | c :: _ => plainCut cs c
  | [] => faultCut
where
  /-- White space, a number, a word or a symbol, by the first character. -/
  plainCut (cs : List Char) (c : Char) : Cut :=
    if isSpace c then ⟨.gap, runLength isSpace cs, .program⟩
    else if c.isDigit then numberCut cs
    else if isNameStart c then wordCut cs
    else symbolCut cs

/-- What follows the word that ends the program: two parentheses and the end of a statement, with
white space at most. Nothing else gets read. -/
def haltingCut (stage : HaltStage) (cs : List Char) : Cut :=
  if cs.head?.any isSpace then ⟨.gap, runLength isSpace cs, .halting stage⟩
  else match stage, cs with
    | .opener, '(' :: _ => ⟨.token (.symbol "("), 1, .halting .closer⟩
    | .closer, ')' :: _ => ⟨.token (.symbol ")"), 1, .halting .terminator⟩
    | .terminator, ';' :: _ => ⟨.token (.symbol ";"), 1, .halted⟩
    | .terminator, '?' :: '>' :: _ => ⟨.token .closeTag, 2, .halted⟩
    | _, _ => ⟨.fault .lasting, cs.length, .halted⟩

/-- Whether a piece of a document is the last one of its line. -/
def endsLine (piece : List Char) : Bool := piece.getLast?.any fun c => c = '\n' || c = '\r'

/-- The next lexeme by mode. Modes that stand before an interpolation are dealt with earlier. -/
def LexMode.cut (mode : LexMode) (cs : List Char) : Cut :=
  match mode with
  | .opening =>
    if ['#', '!'].isPrefixOf cs then
      ⟨.token .inlineText, runLength (· != '\n') cs + 1, .outside⟩
    else outsideCut cs
  | .outside => outsideCut cs
  | .program => programCut cs
  | .quoted quote _ =>
    if cs.head? = some quote then
      ⟨.token (.symbol (String.singleton quote)), 1, .program⟩
    else ⟨.token .stringPart, literalLength quote false cs, .quoted quote true⟩
  | .document interpolates label _ =>
    match documentCloseLength? label cs with
    | some n => ⟨.token .documentEnd, n, .program⟩
    | none =>
      let length := documentLineLength interpolates false cs
      ⟨.token .stringPart, length, .document interpolates label !(endsLine (cs.take length))⟩
  | .halting stage => haltingCut stage cs
  | .halted => ⟨.token .inlineText, cs.length, .halted⟩

def LexMode.interpolates : LexMode → Bool
  | quoted _ _ => true
  | document interpolates _ _ => interpolates
  | _ => false

def LexMode.afterText : LexMode → Bool
  | quoted _ afterText => afterText
  | document _ _ afterText => afterText
  | _ => false

/-- The mode of a string behind one of its interpolated expressions. -/
def LexMode.afterExpression : LexMode → LexMode
  | quoted quote _ => quoted quote false
  | document interpolates label _ => document interpolates label false
  | mode => mode

def LexState.enters (state : LexState) (cs : List Char) : Bool :=
  state.mode.interpolates && opensInterpolation cs

/-- Turns to program text when an interpolated expression begins here. -/
def LexState.enter (state : LexState) (cs : List Char) : LexState :=
  if state.enters cs then
    ⟨.program,
      ⟨cs.length, cs.length - interpolationLength cs, opensBraces cs, state.mode.afterExpression⟩ ::
        state.pending⟩
  else state

/-- The next lexeme. In an interpolated expression without braces a backslash ends a name, and in
any interpolated expression a fault interrupts the text. -/
def LexState.cut (state : LexState) (cs : List Char) : Cut :=
  let cut := state.mode.cut cs
  match state.pending, cut.kind with
  | inner :: _, .token .qualifiedName =>
    if inner.isBraced then cut else wordCut (cs.takeWhile isNamePart)
  | _ :: _, .fault _ => ⟨.fault .interruption, cut.length, cut.mode⟩
  | _, _ => cut

/-- The state after a lexeme: back in the string once its interpolated expression has been read, and
out of all strings after a fault. -/
def LexState.advance (state : LexState) (cut : Cut) (rest : List Char) : LexState :=
  match state.pending, cut.kind with
  | _, .fault _ => ⟨cut.mode, []⟩
  | inner :: pending, _ =>
    if rest.length ≤ inner.stop then ⟨inner.mode, pending⟩ else ⟨cut.mode, inner :: pending⟩
  | [], _ => ⟨cut.mode, []⟩

/-- Where the outermost interpolated expression being read began. -/
def LexState.inside (state : LexState) : Option Nat := state.pending.getLast?.map (·.start)

/-- The empty text before an interpolated expression that no other text precedes. -/
def LexState.lead (state : LexState) (cs : List Char) : List Lexeme :=
  if state.enters cs && !state.mode.afterText then [⟨.token .stringPart, [], state.inside⟩] else []

def lexemesFrom (state : LexState) (cs : List Char) : List Lexeme :=
  match cs with
  | [] => []
  | c :: rest =>
    let inner := state.enter (c :: rest)
    let cut := inner.cut (c :: rest)
    let tail := rest.drop (cut.length - 1)
    state.lead (c :: rest) ++ ⟨cut.kind, c :: rest.take (cut.length - 1), inner.inside⟩ ::
      lexemesFrom (inner.advance cut tail) tail
termination_by cs.length
decreasing_by
  rw [List.length_drop, List.length_cons]
  omega

def lexemes (cs : List Char) : List Lexeme := lexemesFrom ⟨.opening, []⟩ cs

private theorem flatMap_lead (state : LexState) (cs : List Char) :
    (state.lead cs).flatMap Lexeme.chars = [] := by
  unfold LexState.lead
  split <;> rfl

theorem flatMap_lexemesFrom (state : LexState) (cs : List Char) :
    (lexemesFrom state cs).flatMap Lexeme.chars = cs := by
  fun_induction lexemesFrom state cs with
  | case1 => rfl
  | case2 state c rest inner cut tail ih =>
    rw [List.flatMap_append, flatMap_lead, List.nil_append, List.flatMap_cons, ih, List.cons_append,
      List.take_append_drop]

theorem flatMap_lexemes (cs : List Char) : (lexemes cs).flatMap Lexeme.chars = cs :=
  flatMap_lexemesFrom _ _

/-- What a reader meets: a token, or text that begins none. -/
inductive Item where
  | token (token : Token)
  | fault (fault : Fault)
deriving DecidableEq, Repr

/-- The place, by the characters left, of the first interpolated expression that breaks off. -/
def brokenAt? (pieces : List Lexeme) : Option Nat :=
  (pieces.find? (·.kind = .fault .interruption)).bind (·.inside)

/-- Whether a piece is lost, given where the first interpolated expression breaks off: it is part of
that one or of one after it. -/
def Lexeme.isLost (broken : Option Nat) (piece : Lexeme) : Bool :=
  match piece.kind, piece.inside, broken with
  | .token _, some start, some first => start ≤ first
  | _, _, _ => false

/-- The items among the pieces, the first of which starts at the byte offset. -/
def placeItems (broken : Option Nat) : Nat → List Lexeme → List Item
  | _, [] => []
  | offset, piece :: rest =>
    let stop := offset + byteSize piece.chars
    let items := placeItems broken stop rest
    match piece.kind with
    | .token kind =>
      if piece.isLost broken then items
      else .token ⟨kind, String.ofList piece.chars, ⟨offset, stop⟩⟩ :: items
    | .gap => items
    | .fault fault => .fault fault :: items

def itemsOf (source : Source) : List Item :=
  let pieces := lexemes source.chars
  placeItems (brokenAt? pieces) 0 pieces

end CaretContext.Php
