import CaretContext.Node

/-!
# Walking the tree

Nodes are visited parent first, siblings in order. The visit of a node threads a state and decides
whether the children are visited too. `walk` keeps the nodes still to visit on a stack; `fold` is
the plain recursion that visits the same nodes in the same order.
-/

namespace CaretContext

/-- What happens to the children of the node just visited. -/
inductive Descend where
  | children
  | skip
deriving DecidableEq, Repr

/-- Span tests that exclude a subtree for a caret offset. -/
inductive Pruning where
  | startsAfter
  | startsAtOrAfter
  | disjoint
deriving DecidableEq, Repr

/-- Whether a node with the span is left out for the caret at `offset`. -/
def Pruning.skips : Pruning → Span → Nat → Bool
  | startsAfter, span, offset => decide (offset < span.start)
  | startsAtOrAfter, span, offset => decide (offset ≤ span.start)
  | disjoint, span, offset => !decide (span.Contains offset)

def Pruning.decide (p : Pruning) (span : Span) (offset : Nat) : Descend :=
  if p.skips span offset then .skip else .children

/-- A visit: from a state and a node to the next state and the decision on the children. -/
abbrev Visit (σ : Type) := σ → Node → σ × Descend

/-- The state after visiting the nodes on the stack and what they lead to. -/
def walk {σ : Type} (visit : Visit σ) (state : σ) : List Node → σ
  | [] => state
  | node :: stack =>
    match visit state node with
    | (state, .children) => walk visit state (node.children ++ stack)
    | (state, .skip) => walk visit state stack
termination_by stack => forestSize stack
decreasing_by
  · have := node.forestSize_children_lt
    rw [forestSize_append, forestSize_cons]
    omega
  · have := node.sizeOf_pos
    rw [forestSize_cons]
    omega

mutual

/-- The state after visiting a node and, where the visit says so, its children in order. -/
def fold {σ : Type} (visit : Visit σ) (state : σ) (node : Node) : σ :=
  match visit state node with
  | (state, .children) => foldForest visit state node.children
  | (state, .skip) => state
termination_by (sizeOf node, 0)
decreasing_by exact Prod.Lex.left _ _ node.forestSize_children_lt

def foldForest {σ : Type} (visit : Visit σ) (state : σ) (nodes : List Node) : σ :=
  match nodes with
  | [] => state
  | node :: nodes => foldForest visit (fold visit state node) nodes
termination_by (forestSize nodes, 1)
decreasing_by
  · rw [forestSize_cons]
    rcases Nat.eq_zero_or_pos (forestSize nodes) with h | h
    · rw [h]; exact Prod.Lex.right _ (by omega)
    · exact Prod.Lex.left _ _ (by omega)
  · have := node.sizeOf_pos
    rw [forestSize_cons]
    exact Prod.Lex.left _ _ (by omega)

end

end CaretContext
