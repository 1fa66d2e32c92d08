import CaretContext.Php.Program
import CaretContext.Proofs.Php.Stream

/-!
# Missing ends

A construct that lacks its end takes in the token that stands in the way, and this is left for what comes
next. A statement can lack its semicolon or closing tag, a list its closing bracket, and a construct that
ends with another one lacks its end with that.
-/

namespace CaretContext.Php

open Grammar

/-! ### Ends -/

/-- The statements that end with a semicolon or a closing tag. -/
def markedForms : List PlainStatement :=
  [.namespaceScope, .useImport, .expression, .returnValue, .echo, .globalVariables, .staticVariables,
    .unset, .breakLoop, .continueLoop, .constant, .property, .classConstant, .enumCase, .other]

def endsWithMark : Kind Node → Bool
  | .controlFlow .doWhileLoop => true
  | .statement form => markedForms.contains form
  | _ => false

/-- The word in front of the mark that ends a statement written with a colon. -/
def endWord? : Kind Node → Option String
  | .controlFlow .ifElse => some "endif"
  | .controlFlow .whileLoop => some "endwhile"
  | .controlFlow .forLoop => some "endfor"
  | .controlFlow .foreachLoop => some "endforeach"
  | .controlFlow .switchCase => some "endswitch"
  | .statement .declareDirective => some "enddeclare"
  | _ => none

/-- The brackets that may close the list a construct ends with. -/
def closers : Kind Node → List String
  | .functionCall .. => [")"]
  | .methodCall .. => [")"]
  | .expression .instantiation => [")"]
  | .expression .exit => [")"]
  | .expression .isset => [")"]
  | .expression .list => [")"]
  | .expression .array => ["]", ")"]
  | .expression .matchArms => ["\x7d"]
  | .statement .unset => [")"]
  | _ => []

def openerOf : String → String
  | ")" => "("
  | "]" => "["
  | _ => "\x7b"

/-- Whether a statement may end with the token. The opening tag behind a closing one belongs to it. -/
def endsStatement (t : Token) : Bool := isTerminator t || t.kind = .openTag

/-! ### Parts that no node is made of -/

/-- Whether the stream stands where a value is read and not kept: behind an equals sign, or behind `break`
or `continue` unless the statement ends there. -/
def AsksForValue (mark : Token) (s : Stream) : Prop :=
  mark.isSymbol "=" = true ∨ (mark.isKeyword "break" = true ∨ mark.isKeyword "continue" = true) ∧
    ∀ t ∈ s.tokens.head?, isTerminator t = false

/-- Whether the tokens end with a value that is read from the offset on and not kept. -/
def EndsWithValue (source : Source) (start : Nat) (taken : List Token) : Prop :=
  ∃ mark s fuel depth value rest, s.Reads source ∧ s.IsBehind source mark ∧ start ≤ mark.span.start ∧
    AsksForValue mark s ∧ (expressionAt source fuel depth .lowest).run s = .done value rest ∧
    tokensOf source = taken ++ rest.tokens

/-- Whether there is text in the list of which no element has been made, behind its last comma or its opening
bracket. The closing bracket is no such text, unless the text of a string breaks off before it. -/
def DropsElement (source : Source) (start : Nat) (children : List Node) (closer : String)
    (taken : List Token) : Prop :=
  ∃ front mark first rest, taken = front ++ mark :: first :: rest ∧
    (mark.isSymbol "," = true ∨ mark.isSymbol (openerOf closer) = true) ∧ start ≤ mark.span.start ∧
    (first.isSymbol closer = false ∨ .fault .interruption ∈ itemsOf source) ∧
    ∀ c ∈ children, c.span.stop ≤ mark.span.stop

/-! ### Constructs that lack their end -/

/-- Whether the tokens do not end with the mark of the statement. One that belongs to a part of it is not its
own. -/
def LacksMark (source : Source) (start : Nat) (children : List Node) (taken : List Token) : Prop :=
  ∀ front u, taken = front ++ [u] → endsStatement u = true →
    (∃ c ∈ children, u.span.stop ≤ c.span.stop) ∨ EndsWithValue source start taken

/-- Whether the tokens do not end with the bracket that closes the list. -/
def LacksCloser (source : Source) (start : Nat) (children : List Node) (closer : String)
    (taken : List Token) : Prop :=
  ∀ front u, taken = front ++ [u] → u.isSymbol closer = true →
    (∃ c ∈ children, u.span.stop ≤ c.span.stop) ∨ DropsElement source start children closer taken

/-- Whether the node lacks its end, behind the tokens and in front of `t`: neither `t` nor the token before it
is that end. -/
inductive LacksEnd (source : Source) (taken : List Token) (t : Token) : Node → Prop
  | mark {n : Node} (kind : endsWithMark n.kind = true) (missing : isTerminator t = false)
      (before : LacksMark source n.span.start n.children taken) : LacksEnd source taken t n
  | word {n : Node} {word : String} {front : List Token} {u : Token} (kind : endWord? n.kind = some word)
      (missing : isTerminator t = false) (before : taken = front ++ [u]) (isWord : u.isKeyword word = true) :
      LacksEnd source taken t n
  | list {n : Node} {closer : String} (kind : closer ∈ closers n.kind)
      (missing : t.isSymbol "," = false ∧ t.isSymbol closer = false)
      (before : LacksCloser source n.span.start n.children closer taken) : LacksEnd source taken t n
  | within {n c : Node} (child : c ∈ n.children) (stop : c.span.stop = n.span.stop)
      (lacks : LacksEnd source taken t c) : LacksEnd source taken t n

/-- Whether the node takes in the token that stands where its end is missing. -/
def Overruns (source : Source) (n : Node) : Prop :=
  ∃ taken t rest, tokensOf source = taken ++ t :: rest ∧ n.span.stop = t.span.stop ∧
    LacksEnd source taken t n

private theorem Overruns.within {source : Source} {n c : Node} (h : Overruns source c) (hc : c ∈ n.children)
    (hstop : c.span.stop = n.span.stop) : Overruns source n := by
  obtain ⟨taken, t, rest, htokens, hend, hlacks⟩ := h
  exact ⟨taken, t, rest, htokens, hstop.symm.trans hend, .within hc hstop hlacks⟩

/-- Whether the node ends by the offset, unless it lacks its end. -/
def EndsBy (source : Source) (n : Node) (hi : Nat) : Prop := n.span.stop ≤ hi ∨ Overruns source n

theorem EndsBy.within {source : Source} {n c : Node} {hi : Nat} (h : EndsBy source c hi)
    (hc : c ∈ n.children) (hstop : c.span.stop = n.span.stop) : EndsBy source n hi :=
  h.imp (fun hle => hstop ▸ hle) fun hover => hover.within hc hstop

theorem EndsBy.mono {source : Source} {n : Node} {hi hi' : Nat} (h : EndsBy source n hi) (hle : hi ≤ hi') :
    EndsBy source n hi' :=
  h.imp_left fun hstop => Nat.le_trans hstop hle

end CaretContext.Php
