import CaretContext.Proofs.Php.Makes
import CaretContext.Proofs.Php.Phrase
import CaretContext.Proofs.TreeShape

/-!
# Genuine nodes

What every node that is parsed can be held to: it is made up as the table of the tree says, the names in it
are text of the source, and the arguments of a call stand behind a parenthesis that follows what is called.
A grammar produces such nodes when the expressions and statements it takes as given are such nodes
throughout.
-/

namespace CaretContext.Php

open TokenParser

variable {source : Source}

/-! ### Names -/

/-- Whether the text between the two offsets spells the member. A name that is missing is the empty one, over
an empty span. -/
def SpellsMember (source : Source) (lo hi : Nat) : Member Node → Prop
  | .named name span => source.text? span = some name ∧ (name = "" ↔ span.start = span.stop)
  | .variable node => ∃ name, node.kind = .variable name
  | .expression text _ => ∃ start stop, lo ≤ start ∧ stop ≤ hi ∧ source.text? ⟨start, stop⟩ = some text

/-- Whether the names that a node gives are text of the source, at the places where it says they are. -/
def IsSpelled (source : Source) (n : Node) : Prop :=
  match n.kind with
  | .variable name => source.text? n.span = some ("$" ++ name)
  | .identifier name => source.text? n.span = some name
  | .methodCall receiver _ member _ => SpellsMember source receiver.span.stop n.span.stop member
  | .propertyAccess receiver _ member => SpellsMember source receiver.span.stop n.span.stop member
  | .staticPropertyAccess _ property =>
    ∃ text, source.text? n.span = some text ∧ ("$" ++ property).toList <:+ text.toList
  | _ => True

/-! ### Argument lists -/

/-- The tokens at the beginning of an argument list inside the span: those in front of its parenthesis,
the parenthesis, and the one behind it. -/
structure OpensList (source : Source) (span : Span) (taken : List Token) (opener next : Token) : Prop where
  tokens : ∃ rest, tokensOf source = taken ++ opener :: next :: rest
  kind : opener.kind = .symbol "("
  start : span.start ≤ lastStop taken
  stop : next.span.stop ≤ span.stop

/-- Whether the member ends with the tokens. One in braces begins with an opening brace that follows the
operator, which the receiver may have run over. -/
def EndsMember (source : Source) (receiver : Span) (operator : AccessOperator) (taken : List Token) :
    Member Node → Prop
  | .named _ span => span.stop = lastStop taken
  | .variable node => node.span.stop = lastStop taken
  | .expression text _ => ∃ front op brace inner, taken = front ++ op :: brace :: inner ∧
      op.kind = .symbol operator.text ∧ brace.kind = .symbol "\x7b" ∧
      (receiver.stop = lastStop front ∨ receiver.stop = op.span.stop) ∧
      source.text? ⟨brace.span.start, lastStop taken⟩ = some text

/-- Whether a call has its argument list behind what is called. What is called may have run over the
parenthesis, but only if it lacks its end. -/
def IsOpened (source : Source) (n : Node) : Prop :=
  match n.kind with
  | .functionCall callee _ => ∃ taken opener next, OpensList source n.span taken opener next ∧
      (callee.span.stop = lastStop taken ∨
        callee.span.stop = opener.span.stop ∧ Overruns source callee)
  | .methodCall receiver operator member _ => ∃ taken opener next,
      OpensList source n.span taken opener next ∧ EndsMember source receiver.span operator taken member
  | _ => True

/-! ### Nodes with all that is below them -/

structure Genuine (source : Source) (n : Node) : Prop where
  shaped : n.IsShaped
  spelled : IsSpelled source n
  opened : IsOpened source n

/-- A node that plays the part and is genuine with all that is below it. -/
structure Grown (source : Source) (part : Part) (n : Node) : Prop where
  part : n.kind.part = part
  genuine : ∀ m ∈ nodesIn [n], Genuine source m

abbrev AllGrown (source : Source) (part : Part) (ns : List Node) : Prop := ∀ n ∈ ns, Grown source part n

theorem allGrown_nil {part : Part} : AllGrown source part [] := by simp [AllGrown]

theorem allGrown_singleton {part : Part} {n : Node} (h : Grown source part n) : AllGrown source part [n] := by
  simpa [AllGrown] using h

theorem allGrown_pair {part : Part} {m n : Node} (hm : Grown source part m) (hn : Grown source part n) :
    AllGrown source part [m, n] :=
  List.forall_mem_cons.2 ⟨hm, allGrown_singleton hn⟩

theorem mem_nodesIn_iff {ns : List Node} {m : Node} : m ∈ nodesIn ns ↔ ∃ n ∈ ns, m ∈ nodesIn [n] := by
  induction ns with
  | nil => simp
  | cons n ns ih =>
    have hcons : m ∈ nodesIn (n :: ns) ↔ m ∈ nodesIn [n] ∨ m ∈ nodesIn ns := by
      rw [← List.mem_append, ← nodesIn_append, List.singleton_append]
    rw [hcons, ih]
    simp

namespace Grown

variable {part : Part} {n c : Node}

/-- A node that is itself genuine and whose children are grown. -/
theorem of_children (hpart : n.kind.part = part) (hpayload : n.kind.Holds (Grown source))
    (hrest : Composes (Grown source) n.kind.stretches n.rest) (hspelled : IsSpelled source n)
    (hopened : IsOpened source n) : Grown source part n := by
  have hshaped : n.IsShaped :=
    ⟨hpayload.imp fun _ _ h => h.part, hrest.imp fun _ _ _ h => h.part⟩
  have hchild : ∀ c ∈ n.children, ∀ m ∈ nodesIn [c], Genuine source m := by
    intro c hc
    rw [Node.children, List.mem_append] at hc
    rcases hc with hc | hc
    · obtain ⟨_, -, hgrown⟩ := hpayload.exists_part hc
      exact hgrown.genuine
    · obtain ⟨_, -, hgrown⟩ := hrest.exists_stretch hc
      exact hgrown.genuine
  refine ⟨hpart, fun m hm => ?_⟩
  rw [nodesIn_cons, nodesIn_nil, List.append_nil, List.mem_cons, mem_nodesIn_iff] at hm
  rcases hm with rfl | ⟨c, hc, hm⟩
  · exact ⟨hshaped, hspelled, hopened⟩
  · exact hchild c hc m hm

/-- A node that says no more of the source than what its children are. -/
theorem plain {kind : Kind Node} {span : Span} {children : List Node} (hpart : kind.part = part)
    (hbare : kind.isBare = false) (h : Composes (Grown source) kind.stretches children) :
    Grown source part ⟨kind, span, children⟩ := by
  refine of_children (n := ⟨kind, span, children⟩) hpart ?_ h ?_ ?_
  all_goals cases kind <;> trivial

theorem self (h : Grown source part n) : Genuine source n := h.genuine n (by simp)

private theorem child (h : Grown source part n) (hc : c ∈ n.children) : Grown source c.kind.part c := by
  refine ⟨rfl, fun m hm => h.genuine m ?_⟩
  rw [nodesIn_cons, nodesIn_nil, List.append_nil, List.mem_cons, mem_nodesIn_iff]
  exact .inr ⟨c, hc, hm⟩

/-- The children of a grown node are grown as the table says. -/
theorem rest (h : Grown source part n) : Composes (Grown source) n.kind.stretches n.rest := by
  refine h.self.shaped.rest.imp fun c hc part' hpart => ?_
  have hchild := h.child (c := c) (by simp [Node.children, hc])
  exact hpart ▸ hchild

/-- The operands of an expression whose children are just those. -/
theorem operands {form : PlainExpression} (h : Grown source part n) (hkind : n.kind = .expression form)
    (hform : form.stretches = [(.expression, .many)]) : AllGrown source .expression n.rest := by
  intro c hc
  have hrest := h.rest
  rw [hkind, Kind.stretches, hform] at hrest
  obtain ⟨stretch, hstretch, hgrown⟩ := hrest.exists_stretch hc
  obtain rfl := List.mem_singleton.1 hstretch
  exact hgrown

end Grown

theorem grown_operation {form : PlainExpression} {span : Span} {children : List Node}
    (hform : form.stretches = [(.expression, .many)]) (h : AllGrown source .expression children) :
    Grown source .expression ⟨.expression form, span, children⟩ := by
  refine .plain rfl rfl ?_
  rw [Kind.stretches, hform]
  exact .last h trivial

theorem makes_operation {form : PlainExpression} {start : Nat} {children : List Node}
    (hform : form.stretches = [(.expression, .many)]) (h : AllGrown source .expression children) :
    Makes source (close (.expression form) start children) (Grown source .expression) :=
  fun _ => gives_close fun _ => grown_operation hform h

theorem makes_close {kind : Kind Node} {start : Nat} {children : List Node} (hbare : kind.isBare = false)
    (h : Composes (Grown source) kind.stretches children) :
    Makes source (close kind start children) (Grown source kind.part) :=
  fun _ => gives_close fun _ => .plain rfl hbare h

/-- What is asked of the expressions and statements that a grammar takes as given. -/
structure Grammar.Produces (g : Grammar) : Prop where
  rows : g.ReadsRows
  expression : ∀ level, Makes g.source (g.expression level) (Grown g.source .expression)
  statement : Makes g.source g.statement (AllGrown g.source .statement)

end CaretContext.Php
