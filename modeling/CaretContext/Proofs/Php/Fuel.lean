import CaretContext.Proofs.Php.Gives
import CaretContext.Php.Program

/-!
# Enough turns and enough fuel

A repetition makes its next turn only with fewer items left, and a construct enters another one only with
fewer items left, but for the expression that a statement begins with. So neither the bound on the turns nor
the one on the constructs is ever met: with any larger one the outcome is the same.
-/

namespace CaretContext.Php

open TokenParser Grammar

variable {α σ : Type} {source : Source} {s : Stream}

/-! ### Turns -/

theorem run_below (n : Nat) (p : TokenParser α) (s : Stream) :
    (below n p).run s = if s.items.length < n then p.run s else .failed s := by
  show (if s.items.length < n then p else fail).run s = _
  split <;> rfl

private theorem run_repeatWithin_succ (turn : σ → TokenParser (Turn σ α)) (n : Nat) (state : σ) (s : Stream) :
    (repeatWithin turn (n + 1) state).run s = match (turn state).run s with
      | .done (.again state) rest => (below s.items.length (repeatWithin turn n state)).run rest
      | .done (.stop value) rest => .done value rest
      | .failed rest => .failed rest := by
  rw [repeatWithin, run_bind]
  dsimp only [itemsLeft]
  rw [run_bind]
  cases (turn state).run s with
  | done result rest => cases result <;> rfl
  | failed rest => rfl

private theorem run_repeatWithin_congr {turn : σ → TokenParser (Turn σ α)} {n m : Nat} {state : σ}
    (hn : s.items.length < n) (hm : s.items.length < m) :
    (repeatWithin turn n state).run s = (repeatWithin turn m state).run s := by
  induction n generalizing m state s with
  | zero => omega
  | succ n ih =>
    cases m with
    | zero => omega
    | succ m =>
      rw [run_repeatWithin_succ, run_repeatWithin_succ]
      split
      · -- The next turn is made only with fewer items left.
        rw [run_below, run_below]
        split
        · exact ih (by omega) (by omega)
        · rfl
      · rfl
      · rfl

/-- A repetition never makes more turns than there are items, and one. -/
theorem run_repeatWithin_eq_repeating (turn : σ → TokenParser (Turn σ α)) (state : σ) {n : Nat}
    (hn : s.items.length < n) : (repeatWithin turn n state).run s = (repeating state turn).run s :=
  run_repeatWithin_congr hn (Nat.lt_succ_self _)

/-! ### Constructs -/

private theorem TokenParser.ext_run {p q : TokenParser α} (h : ∀ s, p.run s = q.run s) : p = q := by
  cases p
  cases q
  simp only [TokenParser.mk.injEq]
  exact funext h

private theorem below_congr {p q : TokenParser α} {n : Nat}
    (h : ∀ s : Stream, s.items.length < n → p.run s = q.run s) :
    below n p = below n q := by
  refine TokenParser.ext_run fun s => ?_
  rw [run_below, run_below]
  split
  · exact h s ‹_›
  · rfl

private theorem Grammar.within_congr (fuel fuel' : Nat) {depth expressions statements : Nat}
    (hexpression : ∀ level (s : Stream), s.items.length < expressions →
      (expressionAt source fuel depth level).run s = (expressionAt source fuel' depth level).run s)
    (hstatement : ∀ s : Stream, s.items.length < statements →
      (statementAt source fuel depth).run s = (statementAt source fuel' depth).run s) :
    (grammarAt source fuel depth).within expressions statements =
      (grammarAt source fuel' depth).within expressions statements := by
  simp only [Grammar.within, grammarAt, Grammar.mk.injEq, true_and]
  exact ⟨funext fun level => below_congr (hexpression level), below_congr hstatement⟩

private theorem run_expressionAt_succ (source : Source) (fuel depth : Nat) (level : Level) (s : Stream) :
    (expressionAt source (fuel + 1) depth level).run s = if depth < maxDepth then
      (((grammarAt source fuel (depth + 1)).within s.items.length s.items.length).expressionStep level).run s
      else .failed s := by
  rw [expressionAt]
  show (if depth < maxDepth then
    ((grammarAt source fuel (depth + 1)).within s.items.length s.items.length).expressionStep level
      else fail).run s = _
  split <;> rfl

private theorem run_statementAt_succ (source : Source) (fuel depth : Nat) (s : Stream) :
    (statementAt source (fuel + 1) depth).run s =
      ((grammarAt source fuel depth).within (s.items.length + 1) s.items.length).statementStep.run s := by
  rw [statementAt]
  rfl

private theorem run_at_congr (left fuel fuel' depth : Nat) (s : Stream) (hs : s.items.length = left) :
    (2 * left < fuel → 2 * left < fuel' → ∀ level,
      (expressionAt source fuel depth level).run s = (expressionAt source fuel' depth level).run s) ∧
    (2 * left + 1 < fuel → 2 * left + 1 < fuel' →
      (statementAt source fuel depth).run s = (statementAt source fuel' depth).run s) := by
  -- By the items left. An expression enters only what has fewer, and a statement an expression besides.
  induction left using Nat.strongRecOn generalizing fuel fuel' depth s with
  | ind left ih =>
    have hexpression : ∀ fuel fuel' depth (s : Stream), s.items.length = left → 2 * left < fuel →
        2 * left < fuel' → ∀ level, (expressionAt source fuel depth level).run s =
          (expressionAt source fuel' depth level).run s := by
      intro fuel fuel' depth s hs hfuel hfuel' level
      obtain ⟨fuel, rfl⟩ := Nat.exists_eq_succ_of_ne_zero (Nat.ne_of_gt (Nat.zero_lt_of_lt hfuel))
      obtain ⟨fuel', rfl⟩ := Nat.exists_eq_succ_of_ne_zero (Nat.ne_of_gt (Nat.zero_lt_of_lt hfuel'))
      rw [run_expressionAt_succ, run_expressionAt_succ, hs, Grammar.within_congr fuel fuel']
      · exact fun level s hlt => (ih _ hlt fuel fuel' (depth + 1) s rfl).1 (by omega) (by omega) level
      · exact fun s hlt => (ih _ hlt fuel fuel' (depth + 1) s rfl).2 (by omega) (by omega)
    refine ⟨hexpression fuel fuel' depth s hs, fun hfuel hfuel' => ?_⟩
    obtain ⟨fuel, rfl⟩ := Nat.exists_eq_succ_of_ne_zero (Nat.ne_of_gt (Nat.zero_lt_of_lt hfuel))
    obtain ⟨fuel', rfl⟩ := Nat.exists_eq_succ_of_ne_zero (Nat.ne_of_gt (Nat.zero_lt_of_lt hfuel'))
    rw [run_statementAt_succ, run_statementAt_succ, hs, Grammar.within_congr fuel fuel']
    · intro level s hlt
      rcases Nat.lt_or_eq_of_le (Nat.le_of_lt_succ hlt) with hless | hsame
      · exact (ih _ hless fuel fuel' depth s rfl).1 (by omega) (by omega) level
      · exact hexpression fuel fuel' depth s hsame (by omega) (by omega) level
    · exact fun s hlt => (ih _ hlt fuel fuel' depth s rfl).2 (by omega) (by omega)

/-- The fuel of `parse` never runs out: more of it makes no difference. -/
theorem parseWithin_eq_parse (source : Source) {fuel : Nat} (h : 2 * (itemsOf source).length + 2 ≤ fuel) :
    parseWithin source fuel = parse source := by
  have hitems : (Stream.ofSource source).items = itemsOf source := rfl
  unfold parse parseWithin
  simp only [hitems]
  rw [Grammar.within_congr fuel (2 * (itemsOf source).length + 2)]
  · exact fun level s hlt => (run_at_congr _ _ _ 0 s rfl).1 (by omega) (by omega) level
  · exact fun s hlt => (run_at_congr _ _ _ 0 s rfl).2 (by omega) (by omega)

end CaretContext.Php
