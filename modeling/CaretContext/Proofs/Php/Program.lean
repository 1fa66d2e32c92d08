import CaretContext.Proofs.Php.Fuel
import CaretContext.Proofs.Php.Statement

/-!
# The row of a whole text

By induction on the number of constructs that may be entered, expressions and statements are read in
rows at every depth, and so are the statements of a source.
-/

namespace CaretContext.Php

open TokenParser Grammar

/-- What is read where fewer items are left is read as ever. -/
theorem Grammar.ReadsRows.within {source : Source} {fuel depth : Nat}
    (h : (grammarAt source fuel depth).ReadsRows) (expressions statements : Nat) :
    ((grammarAt source fuel depth).within expressions statements).ReadsRows where
  expression level s := gives_below expressions (h.expression level s)
  statement s := gives_below statements (h.statement s)
  runs s n rest hrun := by
    refine ⟨fuel, depth, ?_⟩
    simp only [Grammar.within, run_below] at hrun
    split at hrun
    · exact hrun
    · cases hrun

theorem readsRows_at (source : Source) (fuel depth : Nat) : (grammarAt source fuel depth).ReadsRows := by
  induction fuel generalizing depth with
  | zero =>
    refine ⟨fun level s => ?_, fun s => ?_, fun s n rest hrun => ⟨0, depth, hrun⟩⟩
    · dsimp only [grammarAt]
      rw [expressionAt]
      exact gives_fail
    · dsimp only [grammarAt]
      rw [statementAt]
      exact gives_fail
  | succ fuel ih =>
    refine ⟨fun level s => ?_, fun s => ?_, fun s n rest hrun => ⟨fuel + 1, depth, hrun⟩⟩
    · dsimp only [grammarAt]
      rw [expressionAt]
      refine gives_itemsLeft.bind fun left rest hleft _ => ?_
      obtain ⟨-, rfl⟩ := hleft
      refine gives_ite (fun _ => ?_) fun _ => gives_fail
      exact gives_expressionStep ((ih (depth + 1)).within left left) level
    · dsimp only [grammarAt]
      rw [statementAt]
      refine gives_itemsLeft.bind fun left rest hleft _ => ?_
      obtain ⟨-, rfl⟩ := hleft
      exact gives_statementStep ((ih depth).within (left + 1) left)

theorem exists_row_parse (source : Source) :
    ∃ hi stop, StatementRow source 0 (parse source) hi stop := by
  rw [parse, parseWithin]
  split
  · rename_i ns rest hrun
    have hg := (readsRows_at source (2 * (itemsOf source).length + 2) 0).within
      ((itemsOf source).length + 1) ((itemsOf source).length + 1)
    exact ⟨rest.last, rest.reach,
      (states_program hg _ (Stream.Reads.ofSource source) ns rest hrun).toStatementRow⟩
  · exact ⟨0, 0, .nil (Nat.le_refl _) (Nat.le_refl _)⟩

end CaretContext.Php
