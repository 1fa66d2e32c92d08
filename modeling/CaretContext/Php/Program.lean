import CaretContext.Php.Statement

/-!
# Programs

The recursion that joins expressions and statements, and the tree of a whole source. Expressions
nest at most 512 deep. Whatever stands inside of another construct starts behind its first item, only
an expression may start where a statement does, so the recursion is bounded by the items to read.
-/

namespace CaretContext.Php

open TokenParser

def maxDepth : Nat := 512

/-- The grammar, with expressions and statements read only where fewer items are left than said. -/
def Grammar.within (g : Grammar) (expressions statements : Nat) : Grammar where
  source := g.source
  expression level := below expressions (g.expression level)
  statement := below statements g.statement

mutual

/-- An expression inside `depth` others, through at most `fuel` constructs. -/
def expressionAt (source : Source) (fuel depth : Nat) (level : Level) : TokenParser Node :=
  match fuel with
  | 0 => fail
  | fuel + 1 => do
    let left ← itemsLeft
    if depth < maxDepth then
      (Grammar.within ⟨source, expressionAt source fuel (depth + 1), statementAt source fuel (depth + 1)⟩
        left left).expressionStep level
    else fail

/-- A statement inside `depth` expressions, through at most `fuel` constructs. -/
def statementAt (source : Source) (fuel depth : Nat) : TokenParser Statements :=
  match fuel with
  | 0 => fail
  | fuel + 1 => do
    let left ← itemsLeft
    (Grammar.within ⟨source, expressionAt source fuel depth, statementAt source fuel depth⟩
      (left + 1) left).statementStep

end

/-- The expressions and statements that are read through at most `fuel` constructs. -/
def grammarAt (source : Source) (fuel depth : Nat) : Grammar :=
  ⟨source, expressionAt source fuel depth, statementAt source fuel depth⟩

/-- The tree of a source that is read through at most `fuel` constructs. -/
def parseWithin (source : Source) (fuel : Nat) : List Node :=
  let stream := Stream.ofSource source
  let left := stream.items.length
  match ((grammarAt source fuel 0).within (left + 1) (left + 1)).program.run stream with
  | .done nodes _ => nodes
  | .failed _ => []

/-- The tree of a source. No construct is entered without an item left for it, and none but an expression
where another one begins, so this is all the fuel that can be used. -/
def parse (source : Source) : List Node := parseWithin source (2 * (itemsOf source).length + 2)

end CaretContext.Php
