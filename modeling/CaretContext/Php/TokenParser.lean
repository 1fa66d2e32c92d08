import CaretContext.Node
import CaretContext.Php.Lexeme

/-!
# Parsers over tokens

A parser reads tokens off the front of a stream and gives a value or fails. Nothing is ever put
back: a parser that fails leaves the stream where it stopped, and a caller that recovers goes on
from there. Text that begins no token makes the parser fail that first looks at it, even if only
from some tokens before it, and is gone then.

Besides the items to read the stream knows two offsets: where the last token taken ended, and how far
the constructs read so far reach, which is beyond it when a token stands in for a missing closer
without being taken.
-/

namespace CaretContext.Php

/-- What is left to read. -/
structure Stream where
  items : List Item
  /-- The end of the last token taken. -/
  last : Nat
  /-- The end of the constructs read so far. -/
  reach : Nat
  /-- Whether the name of a variable is being read as an expression. This stays so for good if that
  expression fails. -/
  inVariableName : Bool
  /-- Whether an expression without braces in a string is being read. This stays so for good if that
  expression fails. -/
  inString : Bool
deriving DecidableEq, Repr

namespace Stream

/-- The stream before anything of the source has been read. -/
def ofSource (source : Source) : Stream := ⟨itemsOf source, 0, 0, false, false⟩

/-- The stream behind a token, where the items are left. -/
def behind (stream : Stream) (token : Token) (items : List Item) : Stream :=
  { stream with items, last := token.span.stop, reach := token.span.stop }

/-- One move of a reader. -/
inductive Step : Stream → Stream → Prop where
  /-- The token at the front is taken. -/
  | take {stream : Stream} {token : Token} {items : List Item}
      (h : stream.items = .token token :: items) : Step stream (stream.behind token items)
  /-- A fault that has been looked at is gone. -/
  | pass {stream : Stream} {fault : Fault} {before after : List Item}
      (h : stream.items = before ++ .fault fault :: after) :
      Step stream { stream with items := before ++ after }
  /-- What is being read reaches over the token at the front. -/
  | reach {stream : Stream} {token : Token} {items : List Item}
      (h : stream.items = .token token :: items) :
      Step stream { stream with reach := max stream.reach token.span.stop }
  | mark (stream : Stream) (inVariableName inString : Bool) :
      Step stream { stream with inVariableName, inString }

/-- The stream where what was read reaches no further than it did before, or the last token taken. -/
def giveUp (stream : Stream) (reach : Nat) : Stream :=
  { stream with reach := max reach stream.last }

/-- Any number of moves. -/
inductive Leads : Stream → Stream → Prop where
  | refl (stream : Stream) : Leads stream stream
  | step {first stream next : Stream} (h : Leads first stream) (move : Step stream next) :
      Leads first next
  /-- What has been read from `start` on is given up, with the tokens taken for it still taken. -/
  | giveUp {first start stream : Stream} (before : Leads first start) (h : Leads start stream) :
      Leads first (stream.giveUp start.reach)

theorem Leads.trans {s t u : Stream} (h : s.Leads t) (h' : t.Leads u) : s.Leads u := by
  induction h' with
  | refl => exact h
  | step _ move ih => exact .step (ih h) move
  | giveUp _ inner ih _ => exact .giveUp (ih h) inner

private theorem Step.leads {s t : Stream} (h : s.Step t) : s.Leads t := .step (.refl s) h

end Stream

inductive Outcome (α : Type) where
  | done (value : α) (rest : Stream)
  | failed (rest : Stream)

/-- The stream after reading, whether that failed or not. -/
def Outcome.rest {α : Type} : Outcome α → Stream
  | done _ rest => rest
  | failed rest => rest

/-- A parser. Whatever it does to the stream is a number of moves. -/
structure TokenParser (α : Type) where
  run : Stream → Outcome α
  leads : ∀ stream : Stream, stream.Leads (run stream).rest

namespace TokenParser

variable {α β σ : Type}

@[inline] protected def pure (value : α) : TokenParser α where
  run stream := .done value stream
  leads := .refl

@[inline] protected def bind (p : TokenParser α) (f : α → TokenParser β) : TokenParser β where
  run stream :=
    match p.run stream with
    | .done value rest => (f value).run rest
    | .failed rest => .failed rest
  leads stream := by
    have hp := p.leads stream
    cases h : p.run stream with
    | done value rest =>
      rw [h] at hp
      exact hp.trans ((f value).leads rest)
    | failed rest =>
      rw [h] at hp
      exact hp

instance : Monad TokenParser where
  pure := TokenParser.pure
  bind := TokenParser.bind

def fail : TokenParser α := ⟨fun stream => .failed stream, .refl⟩

/-! ### Looking ahead -/

/-- What is seen at a place of the stream. -/
inductive Sight where
  | token (token : Token)
  | ending
  | fault
deriving DecidableEq, Repr

/-- What is seen behind `n` tokens, and the items that are left after looking. -/
def lookBehind : Nat → List Item → Sight × List Item
  | _, [] => (.ending, [])
  | 0, .token token :: items => (.token token, .token token :: items)
  | n + 1, .token token :: items =>
    let (sight, items) := lookBehind n items
    (sight, .token token :: items)
  | _, .fault .passing :: items => (.fault, items)
  | _, .fault .interruption :: items => (.ending, items)
  | _, .fault .lasting :: items => (.fault, .fault .lasting :: items)

/-- Looking leaves the items as they are, or takes one fault away. -/
theorem lookBehind_items (n : Nat) (items : List Item) :
    (lookBehind n items).2 = items ∨ ∃ before fault after,
      items = before ++ .fault fault :: after ∧ (lookBehind n items).2 = before ++ after := by
  fun_induction lookBehind n items with
  | case1 => exact .inl rfl
  | case2 => exact .inl rfl
  | case3 n token items sight rest hlook ih =>
    rw [hlook] at ih
    rcases ih with h | ⟨before, fault, after, h, h'⟩
    · exact .inl (congrArg (Item.token token :: ·) h)
    · exact .inr ⟨.token token :: before, fault, after, congrArg (Item.token token :: ·) h,
        congrArg (Item.token token :: ·) h'⟩
  | case4 n items => exact .inr ⟨[], .passing, items, rfl, rfl⟩
  | case5 n items => exact .inr ⟨[], .interruption, items, rfl, rfl⟩
  | case6 => exact .inl rfl

private theorem leads_lookBehind (n : Nat) (stream : Stream) :
    stream.Leads { stream with items := (lookBehind n stream.items).2 } := by
  rcases lookBehind_items n stream.items with h | ⟨before, fault, after, h, h'⟩
  · rw [h]
    exact .refl stream
  · rw [h']
    exact (Stream.Step.pass h).leads

/-- The token after `n` others, or nothing when the text ends before it. At text that begins no
token the parser fails. -/
def peekAt? (n : Nat) : TokenParser (Option Token) where
  run stream :=
    match lookBehind n stream.items with
    | (.token token, items) => .done (some token) { stream with items }
    | (.ending, items) => .done none { stream with items }
    | (.fault, items) => .failed { stream with items }
  leads stream := by
    have h := leads_lookBehind n stream
    rcases hlook : lookBehind n stream.items with ⟨sight, items⟩
    rw [hlook] at h
    cases sight <;> exact h

def peek? : TokenParser (Option Token) := peekAt? 0

def peek : TokenParser Token := do
  match ← peek? with
  | some token => pure token
  | none => fail

/-- Whether the token after `n` others is there and has the property. -/
def nextIs (test : Token → Bool) (n : Nat := 0) : TokenParser Bool := do
  return (← peekAt? n).any test

def atSymbol (text : String) (n : Nat := 0) : TokenParser Bool := nextIs (·.isSymbol text) n

def atKeyword (word : String) (n : Nat := 0) : TokenParser Bool := nextIs (·.isKeyword word) n

/-- Whether all of the tests hold. They are made in order, and none after one that fails to hold. -/
def allOf : List (TokenParser Bool) → TokenParser Bool
  | [] => return true
  | p :: ps => do if ← p then allOf ps else return false

/-- Whether one of the tests holds. They are made in order, and none after one that holds. -/
def anyOf : List (TokenParser Bool) → TokenParser Bool
  | [] => return false
  | p :: ps => do if ← p then return true else anyOf ps

/-! ### Taking tokens -/

def front : TokenParser Token where
  run stream :=
    match stream.items with
    | .token token :: items => .done token (stream.behind token items)
    | _ => .failed stream
  leads stream := by
    split
    · exact (Stream.Step.take ‹_›).leads
    · exact .refl stream

def next : TokenParser Token := do
  let _ ← peek
  front

/-- Takes the next token if it has the property, and otherwise fails without taking it. -/
def expect (test : Token → Bool) : TokenParser Token := do
  if test (← peek) then next else fail

def symbol (text : String) : TokenParser Token := expect (·.isSymbol text)

def keyword (word : String) : TokenParser Token := expect (·.isKeyword word)

/-- Takes the next token and fails afterwards if it lacks the property. -/
def nextSuchThat (test : Token → Bool) : TokenParser Token := do
  let token ← next
  if test token then return token else fail

def skipSymbol (text : String) : TokenParser Bool := do
  if ← atSymbol text then
    let _ ← next
    return true
  else return false

def skipKeyword (word : String) : TokenParser Bool := do
  if ← atKeyword word then
    let _ ← next
    return true
  else return false

/-! ### Places -/

def lastEnd : TokenParser Nat := ⟨fun stream => .done stream.last stream, .refl⟩

def reach : TokenParser Nat := ⟨fun stream => .done stream.reach stream, .refl⟩

/-- Lets the construct being read reach to the end of the token at the front, which is not taken. -/
def reachOver : TokenParser Unit where
  run stream :=
    match stream.items with
    | .token token :: _ => .done () { stream with reach := max stream.reach token.span.stop }
    | _ => .done () stream
  leads stream := by
    split
    · exact (Stream.Step.reach ‹_›).leads
    · exact .refl stream

def startOfNext : TokenParser Nat := do return (← peek).span.start

/-- A node from `start` to the end of what has been read. -/
def close (kind : Kind Node) (start : Nat) (children : List Node) : TokenParser Node := do
  return ⟨kind, ⟨start, ← reach⟩, children⟩

/-! ### Places where words are names -/

/-- Whether the name of a variable is being read as an expression. -/
def inVariableName : TokenParser Bool := ⟨fun stream => .done stream.inVariableName stream, .refl⟩

def asVariableName (p : TokenParser α) : TokenParser α where
  run stream :=
    match p.run { stream with inVariableName := true } with
    | .done value rest => .done value { rest with inVariableName := stream.inVariableName }
    | .failed rest => .failed rest
  leads stream := by
    have hmark := (Stream.Step.mark stream true stream.inString).leads
    have hp := hmark.trans (p.leads { stream with inVariableName := true })
    cases h : p.run { stream with inVariableName := true } with
    | done value rest =>
      rw [h] at hp
      exact .step hp (.mark rest stream.inVariableName rest.inString)
    | failed rest =>
      rw [h] at hp
      exact hp

/-- Whether an expression without braces in a string is being read. -/
def inString : TokenParser Bool := ⟨fun stream => .done stream.inString stream, .refl⟩

def asStringPart (p : TokenParser α) : TokenParser α where
  run stream :=
    match p.run { stream with inString := true } with
    | .done value rest => .done value { rest with inString := stream.inString }
    | .failed rest => .failed rest
  leads stream := by
    have hmark := (Stream.Step.mark stream stream.inVariableName true).leads
    have hp := hmark.trans (p.leads { stream with inString := true })
    cases h : p.run { stream with inString := true } with
    | done value rest =>
      rw [h] at hp
      exact .step hp (.mark rest rest.inVariableName stream.inString)
    | failed rest =>
      rw [h] at hp
      exact hp

/-! ### Repetition and recovery -/

/-- What a turn of a repetition comes to. -/
inductive Turn (σ α : Type) where
  | again (state : σ)
  | stop (value : α)

def itemsLeft : TokenParser Nat := ⟨fun stream => .done stream.items.length stream, .refl⟩

/-- Runs the parser where fewer than `n` items are left, and fails anywhere else. -/
def below (n : Nat) (p : TokenParser α) : TokenParser α := do
  if (← itemsLeft) < n then p else fail

/-- At most `n` turns. A turn that asks for another without having taken an item fails. -/
def repeatWithin (turn : σ → TokenParser (Turn σ α)) : Nat → σ → TokenParser α
  | 0, _ => fail
  | n + 1, state => do
    let before ← itemsLeft
    match ← turn state with
    | .again state => below before (repeatWithin turn n state)
    | .stop value => return value

/-- Turns until one stops. There are at most as many as items, and one. -/
def repeating (state : σ) (turn : σ → TokenParser (Turn σ α)) : TokenParser α := do
  repeatWithin turn ((← itemsLeft) + 1) state

/-- A failure becomes `none`. The tokens taken up to it are still taken, but nothing reaches over the
next one for it. -/
def recover (p : TokenParser α) : TokenParser (Option α) where
  run stream :=
    match p.run stream with
    | .done value rest => .done (some value) rest
    | .failed rest => .done none (rest.giveUp stream.reach)
  leads stream := by
    have hp := p.leads stream
    cases h : p.run stream with
    | done value rest =>
      rw [h] at hp
      exact hp
    | failed rest =>
      rw [h] at hp
      exact .giveUp (.refl stream) hp

/-- Runs the parser and skips a token after it if it has taken none. -/
def forward (p : TokenParser α) : TokenParser α := do
  let start ← lastEnd
  let value ← p
  if (← lastEnd) = start then
    let _ ← recover next
  return value

/-- What follows an element of a bracketed list. A token that is neither comma nor closer ends the list
and is not taken, but the list reaches over it. -/
def afterElement (closer : String) (elements : List α) : TokenParser (Turn (List α) (List α)) := do
  let token ← peek
  if token.isSymbol "," then
    let _ ← next
    return .again elements
  else if token.isSymbol closer then
    let _ ← next
    return .stop elements.reverse
  else
    reachOver
    return .stop elements.reverse

/-- The elements up to the closing symbol of a bracketed list, whose opening symbol has been taken.
An element that fails is left out. -/
def bracketed (closer : String) (element : TokenParser α) : TokenParser (List α) :=
  repeating [] fun elements => do
    if ← skipSymbol closer then return .stop elements.reverse
    match ← recover element with
    | some value => afterElement closer (value :: elements)
    | none => afterElement closer elements

def separated (element : TokenParser α) : TokenParser (List α) :=
  repeating [] fun elements => do
    let elements := (← element) :: elements
    if ← skipSymbol "," then return .again elements
    return .stop elements.reverse

/-- Elements with commas between them, as long as the next token does not end them. -/
def commaSeparated (ends : Token → Bool) (element : TokenParser α) : TokenParser (List α) :=
  repeating [] fun elements => do
    if ← nextIs ends then return .stop elements.reverse
    let elements := (← element) :: elements
    if ← skipSymbol "," then return .again elements
    return .stop elements.reverse

/-- The elements up to the closing symbol, which has to be there. -/
def enclosed (closer : String) (element : TokenParser α) : TokenParser (List α) := do
  let elements ← commaSeparated (·.isSymbol closer) element
  let _ ← symbol closer
  return elements

/-- Repeats the parser as long as the next token has the property. -/
def manyWhile (test : Token → Bool) (element : TokenParser α) : TokenParser (List α) :=
  repeating [] fun elements => do
    if ← nextIs test then return .again ((← element) :: elements)
    return .stop elements.reverse

end TokenParser

end CaretContext.Php
