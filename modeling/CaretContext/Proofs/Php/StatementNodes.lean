import CaretContext.Proofs.Php.ExpressionNodes
import CaretContext.Proofs.Php.Program

/-!
# Nodes of statements

The statements and clauses of every construct are gathered in the order of the table. By induction on the
number of constructs that may be entered, all nodes of a parsed text are genuine.
-/

namespace CaretContext.Php

namespace Grammar

open TokenParser

variable {g : Grammar} {source : Source}

abbrev MakesStatements (source : Source) (p : TokenParser (List Node)) : Prop :=
  Makes source p (AllGrown source .statement)

private theorem makes_finishStatement {form : PlainStatement} {start : Nat} {children : List Node}
    (hpart : form.part = .statement) (h : Composes (Grown source) form.stretches children) :
    MakesStatements source (finishStatement form start children) := by
  refine (makes_close rfl h).bind fun n hn => makes_pure (allGrown_singleton ?_)
  exact hpart ▸ hn

private theorem makes_finishControlFlow {form : ControlFlow} {start : Nat} {children : List Node}
    (h : Composes (Grown source) form.stretches children) :
    MakesStatements source (finishControlFlow form start children) :=
  (makes_close rfl h).bind fun _ hn => makes_pure (allGrown_singleton hn)

private theorem makes_declaration {p : TokenParser Node} (h : Makes source p (Grown source .statement)) :
    MakesStatements source (declaration p) :=
  h.bind fun _ hn => makes_pure (allGrown_singleton hn)

private theorem makes_condition (hg : g.Produces) : Makes g.source g.condition (Grown g.source .expression) :=
  Makes.after fun _ => (hg.expression .lowest).bind fun _ hvalue => Makes.after fun _ => makes_pure hvalue

/-! ### Statement lists with words around them -/

private theorem makes_statementsUntil (hg : g.Produces) (ends : Token → Bool) :
    MakesStatements g.source (g.statementsUntil ends) := by
  refine makes_repeating (fun groups => ∀ group ∈ groups, AllGrown g.source .statement group) (by simp)
    fun groups hinv => Makes.after fun _ => makes_ite (fun _ => makes_pure (allGrown_flatten hinv)) fun _ => ?_
  exact (makes_forward hg.statement).bind fun _ hnodes => makes_pure (List.forall_mem_cons.2 ⟨hnodes, hinv⟩)

private theorem makes_body (hg : g.Produces) (endWord : String) : MakesStatements g.source
    (g.body endWord) := by
  refine Makes.after fun _ => makes_ite (fun _ => ?_) fun _ => hg.statement
  exact (makes_statementsUntil hg _).bind fun _ hnodes =>
    Makes.after fun _ => Makes.after fun _ => makes_pure hnodes

private theorem makes_branch (hg : g.Produces) (ends : List String) : MakesStatements g.source
    (g.branch ends) :=
  Makes.after fun _ => makes_statementsUntil hg _

/-! ### Conditions and loops -/

private theorem makes_elseIfClause (hg : g.Produces) {body : TokenParser Statements}
    (hbody : MakesStatements g.source body)
    (start : Nat) : Makes g.source (g.elseIfClause body start) (Grown g.source .elseIfClause) :=
  Makes.after fun _ => (makes_condition hg).bind fun _ htest => hbody.bind fun _ hnodes =>
    makes_close rfl (.one htest (.last hnodes trivial))

private theorem makes_elseClause {body : TokenParser Statements} (hbody : MakesStatements source body)
    (start : Nat) :
    Makes source (elseClause body start) (Grown source .elseClause) :=
  Makes.after fun _ => hbody.bind fun _ hnodes => makes_close rfl (.last hnodes trivial)

/-- The clauses of a conditional: any number with a condition, then at most one without. -/
abbrev AreClauses (source : Source) (clauses : List Node) : Prop :=
  Composes (Grown source) [(.elseIfClause, .many), (.elseClause, .optional)] clauses

private theorem areClauses_reverse {clauses : List Node} (h : AllGrown source .elseIfClause clauses) :
    AreClauses source clauses.reverse := by
  have hnone : Composes (Grown source) [(.elseClause, .optional)] [] := .last allGrown_nil (Nat.zero_le 1)
  simpa using Composes.many (forall_mem_reverse h) hnone

private theorem areClauses_reverse_cons {clauses : List Node} {last : Node}
    (h : AllGrown source .elseIfClause clauses) (hlast : Grown source .elseClause last) :
    AreClauses source (last :: clauses).reverse := by
  rw [List.reverse_cons]
  exact .many (forall_mem_reverse h) (.last (allGrown_singleton hlast) (Nat.le_refl 1))

private theorem makes_plainClauses (hg : g.Produces) : Makes g.source g.plainClauses (AreClauses g.source) := by
  refine makes_repeating (AllGrown g.source .elseIfClause) allGrown_nil fun clauses hinv => ?_
  refine Makes.after fun found => ?_
  cases found with
  | none => exact makes_pure (areClauses_reverse hinv)
  | some token =>
    refine makes_ite (fun _ => ?_) fun _ => makes_ite (fun _ => ?_) fun _ =>
      makes_pure (areClauses_reverse hinv)
    · refine (makes_elseIfClause hg hg.statement _).bind fun clause hclause => makes_pure ?_
      exact List.forall_mem_cons.2 ⟨hclause, hinv⟩
    · refine (makes_elseClause hg.statement _).bind fun clause hclause => makes_pure ?_
      exact areClauses_reverse_cons hinv hclause

private theorem makes_colonClauses (hg : g.Produces) : Makes g.source g.colonClauses (AreClauses g.source) := by
  refine makes_repeating (AllGrown g.source .elseIfClause) allGrown_nil fun clauses hinv => ?_
  refine Makes.after fun token => makes_ite (fun _ => ?_) fun _ => makes_ite (fun _ => ?_) fun _ =>
    makes_pure (areClauses_reverse hinv)
  · refine (makes_elseIfClause hg (makes_branch hg _) _).bind fun clause hclause => makes_pure ?_
    exact List.forall_mem_cons.2 ⟨hclause, hinv⟩
  · refine (makes_elseClause (makes_branch hg _) _).bind fun clause hclause => makes_pure ?_
    exact areClauses_reverse_cons hinv hclause

private theorem makes_ifStatement (hg : g.Produces) (start : Nat) : MakesStatements g.source
    (g.ifStatement start) := by
  refine Makes.after fun _ => (makes_condition hg).bind fun test htest => Makes.after fun _ => ?_
  refine makes_ite (fun _ => ?_) fun _ => ?_
  · refine (makes_branch hg _).bind fun nodes hnodes => (makes_colonClauses hg).bind fun _ hclauses => ?_
    refine Makes.after fun _ => Makes.after fun _ => ?_
    exact makes_finishControlFlow (.one htest (.many hnodes hclauses))
  · refine hg.statement.bind fun nodes hnodes => (makes_plainClauses hg).bind fun _ hclauses => ?_
    exact makes_finishControlFlow (.one htest (.many hnodes hclauses))

private theorem makes_whileStatement (hg : g.Produces) (start : Nat) : MakesStatements g.source
    (g.whileStatement start) :=
  Makes.after fun _ => (makes_condition hg).bind fun _ htest => (makes_body hg _).bind fun _ hnodes =>
    makes_finishControlFlow (.one htest (.last hnodes trivial))

private theorem makes_doWhileStatement (hg : g.Produces) (start : Nat) :
    MakesStatements g.source (g.doWhileStatement start) := by
  refine Makes.after fun _ => hg.statement.bind fun nodes hnodes => Makes.after fun _ => ?_
  refine (makes_condition hg).bind fun test htest => Makes.after fun _ => ?_
  exact makes_finishControlFlow (.many hnodes (.one htest .nil))

private theorem makes_expressionsBefore (hg : g.Produces) (closer : String) :
    Makes g.source (g.expressionsBefore closer) (AllGrown g.source .expression) :=
  (makes_commaSeparated _ (hg.expression .lowest)).bind fun _ hnodes => Makes.after fun _ => makes_pure hnodes

private theorem makes_forStatement (hg : g.Produces) (start : Nat) : MakesStatements g.source
    (g.forStatement start) := by
  refine Makes.after fun _ => Makes.after fun _ => (makes_expressionsBefore hg _).bind fun _ hinitial => ?_
  refine (makes_expressionsBefore hg _).bind fun _ htests => ?_
  refine (makes_expressionsBefore hg _).bind fun _ hsteps => (makes_body hg _).bind fun _ hnodes => ?_
  have hheader := List.forall_mem_append.2 ⟨List.forall_mem_append.2 ⟨hinitial, htests⟩, hsteps⟩
  exact makes_finishControlFlow (.many hheader (.last hnodes trivial))

private theorem makes_foreachTarget (hg : g.Produces) :
    Makes g.source g.foreachTarget (AllGrown g.source .expression) := by
  refine (hg.expression .lowest).bind fun first hfirst => Makes.after fun _ => ?_
  refine makes_ite (fun _ => ?_) fun _ => ?_
  · exact (hg.expression .lowest).bind fun _ hsecond => makes_pure (allGrown_pair hfirst hsecond)
  · exact makes_pure (allGrown_singleton hfirst)

private theorem makes_foreachStatement (hg : g.Produces) (start : Nat) :
    MakesStatements g.source (g.foreachStatement start) := by
  refine Makes.after fun _ => Makes.after fun _ => (hg.expression .lowest).bind fun _ hcollection => ?_
  refine Makes.after fun _ => (makes_foreachTarget hg).bind fun _ htarget => Makes.after fun _ => ?_
  refine (makes_body hg _).bind fun _ hnodes => ?_
  have hheader := List.forall_mem_cons.2 ⟨hcollection, htarget⟩
  exact makes_finishControlFlow (.many hheader (.last hnodes trivial))

/-! ### Switch and try -/

private theorem makes_caseValue (hg : g.Produces) :
    Makes g.source g.caseValue fun value => AllGrown g.source .expression value ∧ value.length ≤ 1 := by
  refine Makes.after fun _ => makes_ite (fun _ => makes_pure ⟨allGrown_nil, Nat.zero_le 1⟩) fun _ => ?_
  exact Makes.after fun _ => (hg.expression .lowest).bind fun _ hvalue =>
    makes_pure ⟨allGrown_singleton hvalue, Nat.le_refl 1⟩

private theorem makes_switchCase (hg : g.Produces) : Makes g.source g.switchCase
    (Grown g.source .caseClause) := by
  refine Makes.after fun _ => (makes_caseValue hg).bind fun value hvalue => Makes.after fun _ => ?_
  refine (makes_statementsUntil hg _).bind fun nodes hnodes => ?_
  exact makes_close rfl (.optional hvalue.1 hvalue.2 (.last hnodes trivial))

private theorem makes_switchCases (hg : g.Produces) (closes : Token → Bool) :
    Makes g.source (g.switchCases closes) (AllGrown g.source .caseClause) :=
  Makes.after fun _ => (makes_manyWhile _ (makes_switchCase hg)).bind fun _ hcases =>
    Makes.after fun _ => makes_pure hcases

private theorem makes_switchStatement (hg : g.Produces) (start : Nat) :
    MakesStatements g.source (g.switchStatement start) := by
  refine Makes.after fun _ => (makes_condition hg).bind fun subject hsubject => Makes.after fun _ => ?_
  refine makes_ite (fun _ => ?_) fun _ => ?_
  · refine (makes_switchCases hg _).bind fun cases hcases => Makes.after fun _ => ?_
    exact makes_finishControlFlow (.one hsubject (.last hcases trivial))
  · refine Makes.after fun _ => (makes_switchCases hg _).bind fun cases hcases => ?_
    exact makes_finishControlFlow (.one hsubject (.last hcases trivial))

private theorem makes_catchClause (hg : g.Produces) : Makes g.source g.catchClause
    (Grown g.source .catchClause) := by
  refine Makes.after fun _ => Makes.after fun _ => Makes.after fun _ => Makes.after fun _ => ?_
  exact Makes.after fun _ => (makes_block hg).bind fun _ hnodes => makes_close rfl (.last hnodes trivial)

private theorem makes_finallyClause (hg : g.Produces) : Makes g.source g.finallyClause
    (Composes (Grown g.source) [(.finallyClause, .optional)]) := by
  refine Makes.after fun _ => makes_ite (fun _ => ?_) fun _ => ?_
  · refine Makes.after fun _ => (makes_block hg).bind fun nodes hnodes => ?_
    have hchildren : Composes (Grown g.source) PlainStatement.finallyClause.stretches nodes :=
      .last hnodes trivial
    refine (makes_close rfl hchildren).bind fun n hn => makes_pure ?_
    exact .last (allGrown_singleton hn) (Nat.le_refl 1)
  · exact makes_pure (.last allGrown_nil (Nat.zero_le 1))

private theorem makes_tryStatement (hg : g.Produces) (start : Nat) : MakesStatements g.source
    (g.tryStatement start) := by
  refine Makes.after fun _ => (makes_block hg).bind fun nodes hnodes => ?_
  refine (makes_manyWhile _ (makes_catchClause hg)).bind fun catches hcatches => ?_
  refine (makes_finallyClause hg).bind fun last hlast => makes_finishControlFlow ?_
  rw [List.append_assoc]
  exact .many hnodes (.many hcatches hlast)

/-! ### Plain statements -/

private theorem makes_finishValues {form : PlainStatement} {start : Nat} {values : List Node}
    (hpart : form.part = .statement) (hform : form.stretches = [(.expression, .many)])
    (h : AllGrown source .expression values) : MakesStatements source (finishStatement form start values) := by
  refine makes_finishStatement hpart ?_
  rw [hform]
  exact .last h trivial

private theorem makes_listStatement (hg : g.Produces) {form : PlainStatement} (hpart : form.part = .statement)
    (hform : form.stretches = [(.expression, .many)]) (start : Nat) :
    MakesStatements g.source (g.listStatement form start) :=
  Makes.after fun _ => (makes_commaSeparated _ (hg.expression .lowest)).bind fun _ hvalues =>
    Makes.after fun _ => makes_finishValues hpart hform hvalues

private theorem makes_valueBeforeEnd (hg : g.Produces) :
    Makes g.source g.valueBeforeEnd (AllGrown g.source .expression) := by
  refine Makes.after fun _ => makes_ite (fun _ => makes_pure allGrown_nil) fun _ => ?_
  exact (hg.expression .lowest).bind fun _ hvalue => makes_pure (allGrown_singleton hvalue)

private theorem makes_optionalValueStatement (hg : g.Produces) {form : PlainStatement}
    (hpart : form.part = .statement) (hform : form.stretches = [(.expression, .many)]) (keep : Bool)
    (start : Nat) : MakesStatements g.source (g.optionalValueStatement form keep start) := by
  refine Makes.after fun _ => (makes_valueBeforeEnd hg).bind fun value hvalue => Makes.after fun _ => ?_
  refine makes_finishValues hpart hform ?_
  split
  · exact hvalue
  · exact allGrown_nil

private theorem makes_globalStatement (g : Grammar) (start : Nat) : MakesStatements g.source
    (g.globalStatement start) := by
  have hvariable : Makes g.source g.anyVariable (Grown g.source .expression) :=
    fun s => (gives_isVariable g).imp fun _ _ _ _ h => h.grown
  refine Makes.after fun _ => (makes_commaSeparated _ hvariable).bind fun names hnames => ?_
  exact Makes.after fun _ => makes_finishValues rfl rfl hnames

private theorem makes_staticItem (hg : g.Produces) :
    Makes g.source g.staticItem (AllGrown g.source .expression) :=
  Makes.after fun _ => (makes_optionalValue hg).imp fun _ hvalue => hvalue.1

private theorem makes_staticStatement (hg : g.Produces) (start : Nat) :
    MakesStatements g.source (g.staticStatement start) := by
  refine Makes.after fun _ => (makes_commaSeparated _ (makes_staticItem hg)).bind fun values hvalues => ?_
  refine Makes.after fun _ => makes_finishValues rfl rfl fun n hn => ?_
  obtain ⟨value, hvalue, hmem⟩ := List.mem_flatten.1 hn
  exact hvalues value hvalue n hmem

private theorem makes_unsetStatement (hg : g.Produces) (start : Nat) : MakesStatements g.source
    (g.unsetStatement start) :=
  Makes.after fun _ => Makes.after fun _ => (makes_bracketed _ (hg.expression .lowest)).bind fun _ hvalues =>
    Makes.after fun _ => makes_finishValues rfl rfl hvalues

private theorem makes_declareItem (hg : g.Produces) :
    Makes g.source g.declareItem (Grown g.source .expression) :=
  Makes.after fun _ => Makes.after fun _ => hg.expression .lowest

private theorem makes_declareStatement (hg : g.Produces) (start : Nat) :
    MakesStatements g.source (g.declareStatement start) := by
  refine Makes.after fun _ => Makes.after fun _ => ?_
  refine (makes_enclosed _ (makes_declareItem hg)).bind fun _ hvalues => ?_
  refine (makes_body hg _).bind fun _ hnodes => ?_
  exact makes_finishStatement rfl (.many hvalues (.last hnodes trivial))

private theorem makes_constantStatement (g : Grammar) (start : Nat) :
    MakesStatements g.source (g.constantStatement start) :=
  Makes.after fun _ => Makes.after fun _ => Makes.after fun _ => makes_finishValues rfl rfl allGrown_nil

private theorem makes_useStatement (start : Nat) : MakesStatements source (useStatement start) :=
  Makes.after fun _ => Makes.after fun _ => Makes.after fun _ => makes_finishValues rfl rfl allGrown_nil

private theorem makes_recoveredExtent (hg : g.Produces) (ends : Token → Bool) :
    Makes g.source (g.recoveredExtent ends) fun extent => AllGrown g.source .statement extent.1 := by
  refine Makes.after fun _ => makes_repeating
    (fun state => ∀ group ∈ state.1, AllGrown g.source .statement group) (by simp) fun state hinv => ?_
  obtain ⟨groups, stop⟩ := state
  refine Makes.after fun found => ?_
  cases found with
  | none => exact makes_pure (allGrown_flatten hinv)
  | some token =>
    refine makes_ite (fun _ => makes_pure (allGrown_flatten hinv)) fun _ => ?_
    refine (makes_forward (makes_recover hg.statement)).bind fun found hfound => ?_
    cases found with
    | none => exact makes_pure hinv
    | some ns => exact Makes.after fun _ => makes_pure (List.forall_mem_cons.2 ⟨hfound ns rfl, hinv⟩)

private theorem makes_namespaceStatement (hg : g.Produces) (start : Nat) :
    MakesStatements g.source (g.namespaceStatement start) := by
  refine Makes.after fun _ => Makes.after fun _ => Makes.after fun _ => makes_ite (fun _ => ?_) fun _ => ?_
  · exact (makes_block hg).bind fun _ hnodes => makes_finishStatement rfl (.last hnodes trivial)
  · refine Makes.after fun _ => (makes_recoveredExtent hg _).bind fun extent hnodes => makes_pure ?_
    exact allGrown_singleton (.plain rfl rfl (.last hnodes trivial))

private theorem makes_gotoStatement (start : Nat) : MakesStatements source (gotoStatement start) :=
  Makes.after fun _ => Makes.after fun _ => Makes.after fun _ => makes_finishValues rfl rfl allGrown_nil

private theorem makes_labelStatement (start : Nat) : MakesStatements source (labelStatement start) :=
  Makes.after fun _ => Makes.after fun _ => makes_finishValues rfl rfl allGrown_nil

private theorem makes_haltStatement (start : Nat) : MakesStatements source (haltStatement start) :=
  Makes.after fun _ => Makes.after fun _ => Makes.after fun _ => Makes.after fun _ =>
    makes_finishValues rfl rfl allGrown_nil

private theorem makes_expressionStatement (hg : g.Produces) : MakesStatements g.source g.expressionStatement :=
  (hg.expression .lowest).bind fun _ hvalue => Makes.after fun _ =>
    makes_finishValues rfl rfl (allGrown_singleton hvalue)

private theorem makes_closureStatement (hg : g.Produces) (start : Nat) :
    MakesStatements g.source (g.closureStatement start) :=
  (makes_unnamedFunction hg start).bind fun _ hnode => Makes.after fun _ =>
    makes_finishValues rfl rfl (allGrown_singleton hnode)

private theorem makes_functionStatement (hg : g.Produces) (start : Nat) :
    MakesStatements g.source (g.functionStatement start) :=
  Makes.after fun _ => makes_ite (fun _ => makes_closureStatement hg start) fun _ =>
    makes_declaration (makes_functionDeclaration hg start)

private theorem makes_attributedStatement (hg : g.Produces) (start : Nat) :
    MakesStatements g.source (g.attributedStatement start) := by
  refine Makes.after fun _ => Makes.after fun token => ?_
  split
  · exact makes_functionStatement hg start
  · exact makes_closureStatement hg start
  · exact makes_declaration (makes_interfaceDeclaration hg start)
  · exact makes_declaration (makes_traitDeclaration hg start)
  · exact makes_declaration (makes_enumDeclaration hg start)
  · exact makes_constantStatement g _
  · exact makes_declaration (makes_classDeclaration hg start)
  · refine Makes.after fun _ => makes_ite (fun _ => makes_closureStatement hg start) fun _ => ?_
    exact makes_ite (fun _ => makes_declaration (makes_classDeclaration hg start)) fun _ => makes_fail

private theorem makes_modifierStatement (hg : g.Produces) (start : Nat) :
    MakesStatements g.source (g.modifierStatement start) := by
  refine Makes.after fun _ => makes_ite (fun _ => makes_staticStatement hg start) fun _ => ?_
  refine Makes.after fun _ => makes_ite (fun _ => makes_expressionStatement hg) fun _ => ?_
  exact makes_declaration (makes_classDeclaration hg start)

private theorem makes_wordStatement (hg : g.Produces) (start : Nat) : MakesStatements g.source
    (g.wordStatement start) :=
  Makes.after fun _ => makes_ite (fun _ => makes_labelStatement start) fun _ => makes_expressionStatement hg

private theorem makes_keywordStatement (hg : g.Produces) (start : Nat) (word : String) :
    MakesStatements g.source (g.keywordStatement start word) := by
  -- One case for each word, in the order of the grammar.
  unfold keywordStatement
  split
  · exact makes_ifStatement hg start
  · exact makes_whileStatement hg start
  · exact makes_doWhileStatement hg start
  · exact makes_forStatement hg start
  · exact makes_foreachStatement hg start
  · exact makes_switchStatement hg start
  · exact makes_tryStatement hg start
  · exact makes_optionalValueStatement hg rfl rfl true start
  · exact makes_optionalValueStatement hg rfl rfl false start
  · exact makes_optionalValueStatement hg rfl rfl false start
  · exact makes_listStatement hg rfl rfl start
  · exact makes_globalStatement g start
  · exact makes_unsetStatement hg start
  · exact makes_declareStatement hg start
  · exact makes_constantStatement g start
  · exact makes_useStatement start
  · exact makes_namespaceStatement hg start
  · exact makes_gotoStatement start
  · exact makes_haltStatement start
  · exact makes_functionStatement hg start
  · exact makes_declaration (makes_classDeclaration hg start)
  · exact makes_declaration (makes_interfaceDeclaration hg start)
  · exact makes_declaration (makes_traitDeclaration hg start)
  · exact makes_declaration (makes_enumDeclaration hg start)
  · exact makes_ite (fun _ => makes_modifierStatement hg start) fun _ => makes_wordStatement hg start

private theorem makes_statementStep (hg : g.Produces) : MakesStatements g.source g.statementStep := by
  refine Makes.after fun token => ?_
  dsimp only
  split
  · exact Makes.after fun _ => makes_finishValues rfl rfl allGrown_nil
  · exact Makes.after fun _ => makes_pure allGrown_nil
  · exact Makes.after fun _ => makes_pure allGrown_nil
  · exact makes_listStatement hg rfl rfl _
  · exact Makes.after fun _ => makes_pure allGrown_nil
  · exact makes_block hg
  · exact makes_attributedStatement hg _
  · exact makes_keywordStatement hg _ _
  · exact makes_wordStatement hg _
  · exact makes_expressionStatement hg

private theorem makes_program (hg : g.Produces) : MakesStatements g.source g.program := by
  refine makes_repeating (fun groups => ∀ group ∈ groups, AllGrown g.source .statement group) (by simp)
    fun groups hinv => Makes.after fun found => ?_
  split
  · refine (makes_forward (makes_recover hg.statement)).bind fun found hfound => ?_
    cases found with
    | none => exact makes_pure hinv
    | some ns => exact makes_pure (List.forall_mem_cons.2 ⟨hfound ns rfl, hinv⟩)
  · exact makes_pure (allGrown_flatten hinv)

end Grammar

open TokenParser Grammar

/-! ### The whole text -/

private theorem Grammar.Produces.within {g : Grammar} (h : g.Produces) {expressions statements : Nat}
    (hrows : (g.within expressions statements).ReadsRows) : (g.within expressions statements).Produces where
  rows := hrows
  expression level s := gives_below expressions (h.expression level s)
  statement s := gives_below statements (h.statement s)

private theorem produces_at (source : Source) (fuel depth : Nat) : (grammarAt source fuel depth).Produces := by
  induction fuel generalizing depth with
  | zero =>
    refine ⟨readsRows_at source 0 depth, fun level => ?_, ?_⟩
    · dsimp only [grammarAt]
      rw [expressionAt]
      exact makes_fail
    · dsimp only [grammarAt]
      rw [statementAt]
      exact makes_fail
  | succ fuel ih =>
    refine ⟨readsRows_at source (fuel + 1) depth, fun level => ?_, ?_⟩
    · dsimp only [grammarAt]
      rw [expressionAt]
      refine Makes.after fun left => makes_ite (fun _ => ?_) fun _ => makes_fail
      have hrows := readsRows_at source fuel (depth + 1)
      exact makes_expressionStep ((ih (depth + 1)).within (hrows.within _ _)) level
    · dsimp only [grammarAt]
      rw [statementAt]
      refine Makes.after fun left => ?_
      exact makes_statementStep ((ih depth).within ((readsRows_at source fuel depth).within _ _))

theorem allGrown_parse (source : Source) : AllGrown source .statement (parse source) := by
  rw [parse, parseWithin]
  split
  · rename_i ns rest hrun
    have hg := (produces_at source (2 * (itemsOf source).length + 2) 0).within
      ((readsRows_at source (2 * (itemsOf source).length + 2) 0).within
        ((itemsOf source).length + 1) ((itemsOf source).length + 1))
    exact makes_program hg _ (Stream.Reads.ofSource source) ns rest hrun
  · exact allGrown_nil

theorem genuine_of_mem_parse {source : Source} {n : Node} (h : n ∈ nodesIn (parse source)) :
    Genuine source n := by
  obtain ⟨root, hroot, hn⟩ := mem_nodesIn_iff.1 h
  exact (allGrown_parse source root hroot).genuine n hn

end CaretContext.Php
