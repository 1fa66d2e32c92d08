import CaretContext.Node.Walk

/-!
# Scope chains

The chain at a caret offset lists the labels of the scope-defining constructs around the caret,
outermost first. After them come the plain statements seen since the last scope-defining
construct, which tells positions between statements apart.
-/

namespace CaretContext

/-- The labels reported for a caret position, outermost first. -/
structure ScopeChain where
  labels : List String
deriving DecidableEq, Repr, Inhabited

namespace ScopeChain

def selector (chain : ScopeChain) : String := ".".intercalate chain.labels

/-- What one walk gathers: the scopes around the caret, and the plain statements since the last
scope-defining construct. -/
structure Gathered where
  scopes : List String
  members : List String
deriving DecidableEq, Repr

/-- The visit of one node. Nothing that starts at or after the caret counts, and glue is passed
through in silence. -/
def visit (offset : Nat) : Visit Gathered := fun gathered node =>
  if Pruning.startsAtOrAfter.skips node.span offset then (gathered, .skip)
  else if node.kind.category = .glue then (gathered, .children)
  else if node.kind.isScopeDefining then
    if node.span.Contains offset then
      (⟨gathered.scopes ++ [node.label], []⟩, .children)
    else (⟨gathered.scopes, []⟩, .children)
  else (⟨gathered.scopes, gathered.members ++ [node.label]⟩, .children)

def resolve (roots : List Node) (offset : Nat) : ScopeChain :=
  let gathered := walk (visit offset) ⟨[], []⟩ roots
  ⟨gathered.scopes ++ gathered.members⟩

end ScopeChain

end CaretContext
