import CaretContext.Php.Statement
import CaretContext.Proofs.Php.Expression

/-!
# Rows of statements
-/

namespace CaretContext.Php.Grammar

open TokenParser

variable {g : Grammar} {source : Source} {s : Stream} {start lo : Nat}

abbrev StatesFrom (source : Source) (lo : Nat) (s : Stream) (p : TokenParser (List Node)) : Prop :=
  Gives source p s fun ns rest => Declared source lo ns rest

private theorem StatesFrom.lower {p : TokenParser (List Node)} {lo' : Nat} (h : StatesFrom source lo s p)
    (hlo : lo' ≤ lo) : StatesFrom source lo' s p :=
  h.imp fun _ _ _ _ hns => Declared.lower hns hlo

private theorem gives_finishStatement {form : PlainStatement} {children : List Node}
    (h : Row source .statements lo children s.last s.reach) (hb : IsBoundary source start) (hle : start ≤ lo)
    (hends : EndsBy source ⟨.statement form, ⟨start, s.reach⟩, children⟩ s.last) :
    StatesFrom source start s (finishStatement form start children) := by
  refine Gives.bind ?_ fun n rest hn _ => gives_pure fun _ => hn
  exact gives_close fun hs => .close h hs trivial rfl hb hle hends

private theorem gives_finishControlFlow {form : ControlFlow} {children : List Node}
    (h : Row source .statements lo children s.last s.reach) (hb : IsBoundary source start) (hle : start ≤ lo)
    (hends : EndsBy source ⟨.controlFlow form, ⟨start, s.reach⟩, children⟩ s.last) :
    StatesFrom source start s (finishControlFlow form start children) := by
  refine Gives.bind ?_ fun n rest hn _ => gives_pure fun _ => hn
  exact gives_close fun hs => .close h hs trivial rfl hb hle hends

private theorem gives_finishLeaf {form : PlainStatement} (hb : IsBoundary source start) (hle : start ≤ s.last)
    (hends : EndsBy source ⟨.statement form, ⟨start, s.reach⟩, []⟩ s.last) :
    StatesFrom source start s (finishStatement form start []) :=
  Gives.of_reads fun hs => gives_finishStatement (.nil hle hs.last_le_reach) hb (Nat.le_refl _) hends

private theorem gives_declaration {p : TokenParser Node} (h : Declares source start p)
    (hstart : Opens source s start) : StatesFrom source start s (declaration p) :=
  (h s hstart).bind fun _ _ hrow _ => gives_pure fun _ => hrow

/-- A condition that ends with its parenthesis. -/
structure IsCondition (source : Source) (s : Stream) (n : Node) (rest : Stream) : Prop where
  row : Row source .statements s.last [n] rest.last rest.last
  reach : rest.reach ≤ rest.last
  closer : ∃ t, rest.IsBehind source t ∧ t.kind = .symbol ")"

private theorem gives_condition (hg : g.ReadsRows) : Gives g.source g.condition s (IsCondition g.source s) := by
  refine Gives.after fun _ s₁ l₁ => (hg.collects_expression .lowest s₁).bind fun n s₂ hrow l₂ => ?_
  refine (gives_symbol ")").bind fun closer s₃ hcloser l₃ => gives_pure fun _ => ?_
  refine ⟨?_, by grind, closer, hcloser.1.isBehind, hcloser.2⟩
  exact hrow.loosen.weaken l₁.last_le l₃.last_le (by grind) (Nat.le_refl _)

/-! ### Statement lists with words around them -/

private theorem states_statementsUntil (hg : g.ReadsRows) (ends : Token → Bool) :
    States g.source id (g.statementsUntil ends) := by
  intro s
  refine Gives.of_reads fun hs => gives_repeating (Grouped g.source s) (.nil hs) fun groups s₁ _ hinv => ?_
  refine gives_peek.bind fun token s₂ hsees l₂ => Gives.of_reads fun hs₂ => ?_
  have hgroups : Grouped g.source s groups s₂ := hinv.passes l₂ (.inl hsees.rests)
  refine gives_ite (fun _ => gives_pure fun _ => hgroups) fun _ => ?_
  exact hg.gives_statement.bind fun ns s₃ hns l₃ => gives_pure fun _ => hgroups.push hs₂ l₃ hns

/-- What has been read before a body, and the body. The construct they make up ends with the last statement
or behind the closing word. -/
theorem gives_body (hg : g.ReadsRows) (endWord : String) {front : List Node}
    (hfront : Row g.source .statements lo front s.last s.last) : Gives g.source (g.body endWord) s
      fun ns rest => Row g.source .statements lo (front ++ ns) rest.last rest.reach ∧
        ∀ kind start, kind.nodes = [] → endWord? kind = some endWord →
          EndsBy g.source ⟨kind, ⟨start, rest.reach⟩, front ++ ns⟩ rest.last := by
  refine (gives_skipSymbol ":").bind fun found s₁ hskip l₁ => ?_
  obtain ⟨rfl, colon, hcolon, -⟩ | ⟨rfl, hrests⟩ := hskip
  · refine (states_statementsUntil hg _ s₁).bind fun ns s₂ hrow l₂ => ?_
    refine (gives_keyword endWord).bind fun word s₃ hword l₃ => ?_
    have hkeyword : word.isKeyword endWord = true := by simp [Token.isKeyword, hword.2]
    refine (gives_terminator_of_word hword.1.isBehind hkeyword).bind fun _ s₄ hends l₄ => ?_
    refine gives_pure fun _ => ⟨(hfront.append hrow.toRow l₁.last_le).extend (l₃.trans l₄), ?_⟩
    exact fun kind start _ hkind => hends kind start _ hkind
  · refine (hg.statement s₁).imp fun ns rest _ _ hns => ?_
    have hrow := hfront.append hns.toRow l₁.last_le
    refine ⟨hrow, fun kind start hnodes _ => ?_⟩
    have hrow' : Row g.source .statements lo (kind.nodes ++ (front ++ ns)) rest.last rest.reach := by
      rw [hnodes]
      exact hrow
    exact hrow'.endsBy hns.settled (by simp [hnodes])

/-! ### Conditions and loops -/

private theorem states_branch (hg : g.ReadsRows) (ends : List String) :
    States g.source id (g.branch ends) := by
  intro s
  refine (gives_symbol ":").bind fun colon s₁ hcolon l₁ => ?_
  refine (states_statementsUntil hg _ s₁).imp fun ns rest _ _ hns => ⟨?_, hns.settles.of_takes hcolon.1⟩
  exact hns.toStatementRow.lower l₁.last_le

private theorem states_statement (hg : g.ReadsRows) : States g.source id g.statement :=
  fun s => (hg.statement s).imp fun _ _ _ _ hns => hns.stated

section Clauses

variable {p : TokenParser (List Node)}

private theorem declares_elseIfClause (hg : g.ReadsRows) (hp : States g.source id p) :
    Declares g.source start (g.elseIfClause p start) := by
  intro s hstart
  refine gives_next.bind fun word s₁ hword l₁ => ?_
  have hle := hstart.le_last hword
  refine (gives_condition hg).bind fun test s₂ htest l₂ => (hp s₂).bind fun ns s₃ hns l₃ => ?_
  have hrow := htest.row.append hns.toRow (Nat.le_refl _)
  refine gives_close fun hs => .close hrow hs trivial rfl hstart.isBoundary hle ?_
  exact hrow.endsBy (hns.settles.settled htest.reach) (List.subset_cons_self _ _)

private theorem declares_elseClause (hp : States source id p) : Declares source start (elseClause p start) := by
  intro s hstart
  refine gives_next.bind fun word s₁ hword l₁ => (hp s₁).bind fun ns s₂ hns l₂ => ?_
  refine gives_close fun hs => .close hns.toRow hs trivial rfl hstart.isBoundary (hstart.le_last hword) ?_
  exact hns.toRow.endsBy (hns.settles.settled (by grind)) (List.Subset.refl _)

end Clauses

private theorem clauses_push {clauses : List Node} {n : Node} {s' s'' : Stream}
    (h : Stated source lo s clauses.reverse s') (hs : s'.Reads source) (hlater : s'.Later s'')
    (hn : Declared source start [n] s'') (hstart : s'.last ≤ start) :
    Stated source lo s (n :: clauses).reverse s'' := by
  rw [List.reverse_cons]
  exact h.append hs hn.stated hstart hlater.reach_le

private theorem states_plainClauses (hg : g.ReadsRows) : States g.source id g.plainClauses := by
  intro s
  refine Gives.of_reads fun hs => gives_repeating
    (fun clauses s' => Stated g.source s.last s clauses.reverse s') (.nil hs) fun clauses s₁ _ hinv => ?_
  refine gives_peek?.bind fun found s₂ hfound l₂ => Gives.of_reads fun hs₂ => ?_
  have hclauses := hinv.passes l₂ (.inl hfound.1)
  cases found with
  | none => exact gives_pure fun _ => hclauses
  | some token =>
    have hsees := hfound.2 token rfl
    have hopens : Opens g.source s₂ token.span.start := ⟨hsees.isBoundary, hsees.ahead⟩
    have hstatement := states_statement hg
    refine gives_ite (fun _ => ?_) fun _ => gives_ite (fun _ => ?_) fun _ => gives_pure fun _ => hclauses
    · refine (declares_elseIfClause hg hstatement s₂ hopens).bind fun n s₃ hn l₃ => ?_
      exact gives_pure fun _ => clauses_push hclauses hs₂ l₃ hn (by grind)
    · refine (declares_elseClause hstatement s₂ hopens).bind fun n s₃ hn l₃ => ?_
      exact gives_pure fun _ => clauses_push hclauses hs₂ l₃ hn (by grind)

private theorem states_colonClauses (hg : g.ReadsRows) : States g.source id g.colonClauses := by
  intro s
  refine Gives.of_reads fun hs => gives_repeating
    (fun clauses s' => Stated g.source s.last s clauses.reverse s') (.nil hs) fun clauses s₁ _ hinv => ?_
  refine gives_peek.bind fun token s₂ hsees l₂ => Gives.of_reads fun hs₂ => ?_
  have hclauses := hinv.passes l₂ (.inl hsees.rests)
  have hopens : Opens g.source s₂ token.span.start := ⟨hsees.isBoundary, hsees.ahead⟩
  have hbranch := fun ends => states_branch hg ends
  refine gives_ite (fun _ => ?_) fun _ => gives_ite (fun _ => ?_) fun _ => gives_pure fun _ => hclauses
  · refine (declares_elseIfClause hg (hbranch _) s₂ hopens).bind fun n s₃ hn l₃ => ?_
    exact gives_pure fun _ => clauses_push hclauses hs₂ l₃ hn (by grind)
  · refine (declares_elseClause (hbranch _) s₂ hopens).bind fun n s₃ hn l₃ => ?_
    exact gives_pure fun _ => clauses_push hclauses hs₂ l₃ hn (by grind)

private theorem gives_ifStatement (hg : g.ReadsRows) (hstart : Opens g.source s start) :
    StatesFrom g.source start s (g.ifStatement start) := by
  refine gives_next.bind fun word s₁ hword l₁ => (gives_condition hg).bind fun test s₂ htest l₂ => ?_
  have hle := hstart.le_last hword
  refine (gives_nextIs _ 0).bind fun found s₃ hrests l₃ => gives_ite (fun _ => ?_) fun _ => ?_
  · refine (states_branch hg _ s₃).bind fun ns s₄ hns l₄ => Gives.of_reads fun hs₄ => ?_
    refine (states_colonClauses hg s₄).bind fun clauses s₅ hclauses l₅ => ?_
    have hnodes := hns.append hs₄ hclauses (Nat.le_refl _) l₅.reach_le
    refine (gives_keyword "endif").bind fun last s₆ hlast l₆ => ?_
    have hkeyword : last.isKeyword "endif" = true := by simp [Token.isKeyword, hlast.2]
    refine (gives_terminator_of_word hlast.1.isBehind hkeyword).bind fun _ s₇ hends l₇ => ?_
    exact gives_finishControlFlow ((htest.row.append hnodes.toRow l₃.last_le).extend (l₆.trans l₇))
      hstart.isBoundary hle (hends _ _ _ rfl)
  · refine (hg.statement s₃).bind fun ns s₄ hns l₄ => Gives.of_reads fun hs₄ => ?_
    refine (states_plainClauses hg s₄).bind fun clauses s₅ hclauses l₅ => ?_
    have hnodes := hns.append hs₄ hclauses (Nat.le_refl _) l₅.reach_le
    have hrow := htest.row.append hnodes.toRow l₃.last_le
    exact gives_finishControlFlow hrow hstart.isBoundary hle
      (hrow.endsBy hnodes.settled (List.subset_cons_self _ _))

private theorem gives_whileStatement (hg : g.ReadsRows) (hstart : Opens g.source s start) :
    StatesFrom g.source start s (g.whileStatement start) := by
  refine gives_next.bind fun word s₁ hword l₁ => (gives_condition hg).bind fun test s₂ htest l₂ => ?_
  refine (gives_body hg _ htest.row).bind fun ns s₃ h l₃ => ?_
  exact gives_finishControlFlow h.1 hstart.isBoundary (hstart.le_last hword) (h.2 _ _ rfl rfl)

private theorem gives_doWhileStatement (hg : g.ReadsRows) (hstart : Opens g.source s start) :
    StatesFrom g.source start s (g.doWhileStatement start) := by
  refine gives_next.bind fun word s₁ hword l₁ => (hg.statement s₁).bind fun ns s₂ hns l₂ => ?_
  refine (gives_keyword "while").bind fun loop s₃ hloop l₃ => ?_
  refine (gives_condition hg).bind fun test s₄ htest l₄ => ?_
  obtain ⟨closer, hbehind, hcloser⟩ := htest.closer
  have hawaits : Awaits g.source start (ns ++ [test]) s₄ :=
    .of_isBehind hbehind (endsStatement_of_symbol hcloser (by decide))
  refine (gives_terminator hawaits).bind fun _ s₅ hends l₅ => ?_
  have hchildren := (hns.toRow.append htest.row (by grind)).weaken (Nat.le_refl _) l₅.last_le (by grind)
    l₅.last_le_reach
  exact gives_finishControlFlow hchildren hstart.isBoundary (hstart.le_last hword) (hends _ rfl)

private theorem gives_expressionsBefore (hg : g.ReadsRows) (closer : String) :
    Gives g.source (g.expressionsBefore closer) s fun ns rest =>
      Row g.source .statements s.last ns rest.last rest.last := by
  have hlist := (collects_commaSeparated (·.isSymbol closer) (hg.collects_expression .lowest)).singles s
  refine hlist.bind fun ns s₁ hrow l₁ => (gives_symbol closer).bind fun mark s₂ hmark l₂ => ?_
  exact gives_pure fun _ => hrow.loosen.weaken (Nat.le_refl _) l₂.last_le (by grind) (Nat.le_refl _)

private theorem gives_forStatement (hg : g.ReadsRows) (hstart : Opens g.source s start) :
    StatesFrom g.source start s (g.forStatement start) := by
  refine gives_next.bind fun word s₁ hword l₁ => Gives.after fun _ s₂ l₂ => ?_
  have hle := hstart.le_last hword
  refine (gives_expressionsBefore hg ";").bind fun initial s₃ hinitial l₃ => ?_
  refine (gives_expressionsBefore hg ";").bind fun tests s₄ htests l₄ => ?_
  refine (gives_expressionsBefore hg ")").bind fun steps s₅ hsteps l₅ => ?_
  have hhead := (hinitial.append htests (Nat.le_refl _)).append hsteps (Nat.le_refl _)
  refine (gives_body hg _ hhead).bind fun ns s₆ h l₆ => ?_
  exact gives_finishControlFlow h.1 hstart.isBoundary (by grind) (h.2 _ _ rfl rfl)

private theorem collects_foreachTarget (hg : g.ReadsRows) : Collects g.source id g.foreachTarget := by
  intro s
  refine (hg.collects_expression .lowest s).bind fun value s₁ hrow l₁ => ?_
  refine (gives_skipSymbol "=>").bind fun found s₂ hskip l₂ => ?_
  obtain ⟨rfl, arrow, harrow, -⟩ | ⟨rfl, -⟩ := hskip
  · refine (hg.collects_expression .lowest s₂).bind fun second s₃ hsecond l₃ => gives_pure fun _ => ?_
    exact hrow.append hsecond (by grind)
  · exact gives_pure fun _ => hrow.extend l₂

private theorem gives_foreachStatement (hg : g.ReadsRows) (hstart : Opens g.source s start) :
    StatesFrom g.source start s (g.foreachStatement start) := by
  refine gives_next.bind fun word s₁ hword l₁ => Gives.after fun _ s₂ l₂ => ?_
  have hle := hstart.le_last hword
  refine (hg.collects_expression .lowest s₂).bind fun collection s₃ hcollection l₃ => ?_
  refine (gives_keyword "as").bind fun mark s₄ hmark l₄ => ?_
  refine (collects_foreachTarget hg s₄).bind fun target s₅ htarget l₅ => ?_
  refine (gives_symbol ")").bind fun closer s₆ hcloser l₆ => ?_
  have hhead : Row g.source .statements s₂.last (collection :: target) s₆.last s₆.last :=
    (hcollection.append htarget (by grind)).loosen.weaken (Nat.le_refl _) l₆.last_le (by grind) (Nat.le_refl _)
  refine (gives_body hg _ hhead).bind fun ns s₇ h l₇ => ?_
  exact gives_finishControlFlow h.1 hstart.isBoundary (by grind) (h.2 _ _ rfl rfl)

/-! ### Switch -/

private theorem gives_caseValue (hg : g.ReadsRows) (hstart : Opens g.source s start) :
    Gives g.source g.caseValue s fun value rest =>
      Row g.source .strict start value rest.last rest.reach := by
  refine (gives_skipKeyword "default").bind fun found s₁ hskip l₁ => ?_
  obtain ⟨rfl, word, hword, -⟩ | ⟨rfl, -⟩ := hskip
  · exact gives_pure fun _ => .nil (hstart.le_last hword) l₁.last_le_reach
  · refine (gives_keyword "case").bind fun word s₂ hword l₂ => ?_
    have hle := (hstart.leads l₁.leads).le_last hword.1
    exact (hg.collects_expression .lowest s₂).bind fun value s₃ hrow l₃ =>
      gives_pure fun _ => hrow.lower hle

private theorem states_switchCase (hg : g.ReadsRows) : States g.source ([·]) g.switchCase := by
  intro s
  refine gives_startOfNext.bind fun start s₁ hstart l₁ => ?_
  obtain ⟨hopens, hlast, -, -⟩ := hstart
  refine (gives_caseValue hg hopens).bind fun value s₂ hvalue l₂ => ?_
  have hmark : Gives g.source caseSeparator s₂ fun _ rest => s₂.reach ≤ rest.last ∧ rest.reach ≤ rest.last :=
    (gives_nextSuchThat _).bind fun mark s₃ hmark _ => gives_pure fun _ => ⟨by grind, by grind⟩
  refine hmark.bind fun _ s₃ hle l₃ => ?_
  refine (states_statementsUntil hg _ s₃).bind fun ns s₄ hns l₄ => gives_close fun hs => ?_
  have hrow := hvalue.loosen.append hns.toRow hle.1
  have hends := hns.settles.settled hle.2
  refine (Declared.lower ?_ hlast).stated
  exact .close hrow hs trivial rfl hopens.isBoundary (Nat.le_refl _)
    (hrow.endsBy hends (List.subset_append_right _ _))

private theorem gives_switchCases (hg : g.ReadsRows) (closes : Token → Bool) :
    Gives g.source (g.switchCases closes) s fun ns rest =>
      StatementRow g.source s.last ns rest.last rest.reach ∧ rest.reach ≤ rest.last ∧
        ∃ t, rest.IsBehind g.source t ∧ closes t = true := by
  refine Gives.after fun _ s₁ l₁ => ?_
  refine (states_manyWhile _ (states_switchCase hg) s₁).bind fun ns s₂ hrow l₂ => ?_
  refine (gives_expect closes).bind fun closer s₃ hcloser l₃ => gives_pure fun _ => ?_
  exact ⟨(hrow.toStatementRow.lower l₁.last_le).extend l₃, by grind, closer, hcloser.1.isBehind, hcloser.2⟩

private theorem gives_switchStatement (hg : g.ReadsRows) (hstart : Opens g.source s start) :
    StatesFrom g.source start s (g.switchStatement start) := by
  refine gives_next.bind fun word s₁ hword l₁ => (gives_condition hg).bind fun subject s₂ hsubject l₂ => ?_
  have hle := hstart.le_last hword
  refine Gives.after fun found s₃ l₃ => gives_ite (fun _ => ?_) fun _ => ?_
  · refine (gives_switchCases hg _).bind fun ns s₄ h l₄ => ?_
    obtain ⟨hrow, -, closer, hbehind, hcloser⟩ := h
    refine (gives_terminator_of_word hbehind hcloser).bind fun _ s₅ hends l₅ => ?_
    exact gives_finishControlFlow ((hsubject.row.append hrow.toRow l₃.last_le).extend l₅) hstart.isBoundary hle
      (hends _ _ _ rfl)
  · refine Gives.after fun _ s₄ l₄ => (gives_switchCases hg _).bind fun ns s₅ h l₅ => ?_
    obtain ⟨hrow, hends, -⟩ := h
    exact gives_finishControlFlow (hsubject.row.append hrow.toRow (l₃.trans l₄).last_le) hstart.isBoundary hle
      (.inl hends)

/-! ### Try -/

private theorem states_catchClause (hg : g.ReadsRows) : States g.source ([·]) g.catchClause := by
  intro s
  refine (gives_keyword "catch").bind fun word s₁ hword l₁ => Gives.after fun _ s₂ l₂ => ?_
  refine Gives.after fun _ s₃ l₃ => Gives.after fun _ s₄ l₄ => Gives.after fun _ s₅ l₅ => ?_
  refine (gives_block hg).bind fun ns s₆ hns l₆ => gives_close fun hs => ?_
  refine (Declared.lower ?_ hword.1.last_le).stated
  exact .close hns.1.toRow hs trivial rfl hword.1.isBoundary (by grind) (.inl hns.2)

private theorem states_finallyClause (hg : g.ReadsRows) : States g.source id g.finallyClause := by
  intro s
  refine (gives_nextIs _ 0).bind fun found s₁ hrests l₁ => gives_ite (fun _ => ?_) fun _ => ?_
  · refine gives_next.bind fun word s₂ hword l₂ => (gives_block hg).bind fun ns s₃ hns l₃ => ?_
    have hclose : Gives g.source (close (.statement .finallyClause) word.span.start ns) s₃ fun n rest =>
        Declared g.source word.span.start [n] rest :=
      gives_close fun hs => .close hns.1.toRow hs trivial rfl hword.isBoundary (by grind) (.inl hns.2)
    exact hclose.bind fun n s₄ hn _ => gives_pure fun _ => (hn.lower (by grind)).stated
  · exact gives_pure fun _ => ⟨.nil l₁.last_le l₁.last_le_reach, .inl hrests⟩

private theorem gives_tryStatement (hg : g.ReadsRows) (hstart : Opens g.source s start) :
    StatesFrom g.source start s (g.tryStatement start) := by
  refine gives_next.bind fun word s₁ hword l₁ => (gives_block hg).bind fun ns s₂ hns l₂ => ?_
  have hle := hstart.le_last hword
  have hclauses := states_manyWhile (·.isKeyword "catch") (states_catchClause hg)
  refine Gives.of_reads fun hs₂ => (hclauses s₂).bind fun catches s₃ hcatches l₃ => ?_
  refine Gives.of_reads fun hs₃ => (states_finallyClause hg s₃).bind fun finally_ s₄ hfinally l₄ => ?_
  have hblock : Declared g.source s₁.reach ns s₂ := ⟨hns.1, .inl hns.2⟩
  have hhead := hblock.append hs₂ hcatches (Nat.le_refl _) l₃.reach_le
  have hnodes := hhead.append hs₃ hfinally (Nat.le_refl _) l₄.reach_le
  exact gives_finishControlFlow hnodes.toRow hstart.isBoundary (by grind)
    (hnodes.toRow.endsBy hnodes.settled (List.Subset.refl _))

/-! ### Plain statements -/

/-- Whether the next token is no mark that ends a statement. -/
abbrev BeginsPlain (s : Stream) : Prop := ∀ t tokens, s.tokens = t :: tokens → endsStatement t = false

private theorem awaits_expression (hg : g.ReadsRows) (start : Nat) :
    Gives g.source (g.expression .lowest) s fun n rest => Awaits g.source start [n] rest :=
  (hg.value .lowest).imp fun _ _ hs _ hn => .of_last_le hs (List.mem_singleton.2 rfl) hn.covers

private theorem gives_listStatement (hg : g.ReadsRows) (form : PlainStatement)
    (hform : endsWithMark (.statement form) = true) (hstart : Opens g.source s start) (hplain : BeginsPlain s) :
    StatesFrom g.source start s (g.listStatement form start) := by
  refine gives_next.bind fun word s₁ hword l₁ => ?_
  have hrows := (collects_commaSeparated isTerminator (hg.collects_expression .lowest)).singles s₁
  have hawaits := awaits_commaSeparated isTerminator
    (.of_takes hword (hplain _ _ hword.tokens)) fun _ _ => awaits_expression hg start
  refine (hrows.and hawaits).bind fun values s₂ h l₂ => ?_
  obtain ⟨hrow, hawait⟩ := h
  rw [List.flatMap_singleton'] at hawait
  refine (gives_terminator hawait).bind fun _ s₃ hends l₃ => ?_
  exact gives_finishStatement (hrow.extend l₃).loosen hstart.isBoundary (hstart.le_last hword) (hends _ hform)

private theorem gives_returnStatement (hg : g.ReadsRows) (hstart : Opens g.source s start)
    (hplain : BeginsPlain s) :
    StatesFrom g.source start s (g.optionalValueStatement .returnValue true start) := by
  refine gives_next.bind fun word s₁ hword l₁ => ?_
  have hle := hstart.le_last hword
  have hvalue : Gives g.source g.valueBeforeEnd s₁ fun value rest =>
      Row g.source .strict s₁.last value rest.last rest.reach ∧ Awaits g.source start value rest := by
    refine gives_peek.bind fun token s₂ hsees l₂ => gives_ite (fun _ => gives_pure fun hs => ?_) fun _ => ?_
    · refine ⟨.nil l₂.last_le hs.last_le_reach, Awaits.of_tokens_eq ?_ hsees.rests.tokens⟩
      exact .of_takes hword (hplain _ _ hword.tokens)
    · refine ((hg.value .lowest).and (awaits_expression hg start)).bind fun value s₃ h l₃ => ?_
      refine gives_pure fun _ => ?_
      exact ⟨h.1.row.lower l₂.last_le, h.2⟩
  refine hvalue.bind fun value s₂ h l₂ => (gives_terminator h.2).bind fun _ s₃ hends l₃ => ?_
  exact gives_finishStatement (h.1.extend l₃).loosen hstart.isBoundary hle (hends _ rfl)

/-- A statement that leaves a loop ends with a value that is not kept, or behind its word. -/
theorem gives_leaveStatement (hg : g.ReadsRows) (form : PlainStatement)
    (hform : endsWithMark (.statement form) = true) (hstart : Opens g.source s start)
    (hword : ∀ t tokens, s.tokens = t :: tokens → t.isKeyword "break" = true ∨ t.isKeyword "continue" = true) :
    StatesFrom g.source start s (g.optionalValueStatement form false start) := by
  refine gives_next.bind fun word s₁ htakes l₁ => ?_
  have hle := hstart.le_last htakes
  have hkeyword := hword _ _ htakes.tokens
  have hplain : endsStatement word = false := by
    rcases hkeyword with hkind | hkind <;>
      simp [endsStatement, isTerminator, Token.isSymbol, (of_decide_eq_true hkind : word.kind = _)]
  have hvalue : Gives g.source g.valueBeforeEnd s₁ fun _ rest => Awaits g.source start [] rest := by
    refine gives_peek.bind fun token s₂ hsees l₂ => gives_ite (fun _ => gives_pure fun _ => ?_) fun hmark => ?_
    · exact Awaits.of_tokens_eq (.of_takes htakes hplain) hsees.rests.tokens
    · obtain ⟨items, hitems⟩ := hsees.front
      have hasks : AsksForValue word s₂ := by
        refine .inr ⟨hkeyword, ?_⟩
        rw [Stream.tokens_of_items hitems]
        simpa using hmark
      have hbehind := htakes.isBehind.of_rests hsees.rests
      exact (hg.awaits_value hbehind (hstart.ahead.le htakes.tokens) hasks).bind
        fun _ _ hawaits _ => gives_pure fun _ => hawaits
  refine hvalue.bind fun value s₂ hawaits l₂ => (gives_terminator hawaits).bind fun _ s₃ hends l₃ => ?_
  exact gives_finishLeaf hstart.isBoundary (by grind) (hends _ hform)

private theorem gives_globalStatement (hstart : Opens g.source s start) (hplain : BeginsPlain s) :
    StatesFrom g.source start s (g.globalStatement start) := by
  refine gives_next.bind fun word s₁ hword l₁ => ?_
  have hnames : Collects g.source ([·]) g.anyVariable :=
    fun s => (gives_anyVariable g).imp fun _ _ _ _ h => h.1.row
  have hawaits : Gives g.source (commaSeparated isTerminator g.anyVariable) s₁ fun names rest =>
      Awaits g.source start (names.flatMap ([·])) rest :=
    awaits_commaSeparated _ (.of_takes hword (hplain _ _ hword.tokens)) fun s' _ =>
      (gives_anyVariable g).imp fun n _ hs _ h =>
        .of_last_le hs (List.mem_singleton.2 rfl) h.1.valued.covers
  have hrows := (collects_commaSeparated isTerminator hnames).singles s₁
  refine (hrows.and hawaits).bind fun names s₂ h l₂ => ?_
  obtain ⟨hrow, hawait⟩ := h
  rw [List.flatMap_singleton'] at hawait
  refine (gives_terminator hawait).bind fun _ s₃ hends l₃ => ?_
  exact gives_finishStatement (hrow.extend l₃).loosen hstart.isBoundary (hstart.le_last hword) (hends _ rfl)

private theorem gives_staticItem (hg : g.ReadsRows) : Gives g.source g.staticItem s fun value rest =>
    Row g.source .strict s.last value rest.last rest.reach ∧
      ∀ start, s.Ahead start → Awaits g.source start value rest := by
  refine (gives_expect _).bind fun name s₁ hname l₁ => ?_
  have hplain := endsStatement_of_kind_variable (of_decide_eq_true hname.2)
  refine (gives_optionalValue hg).imp fun value rest _ _ hvalue => ⟨hvalue.row _ l₁.last_le, ?_⟩
  intro start hahead
  exact (hvalue.awaits start (hahead.leads l₁.leads) (.of_takes hname.1 hplain)).mono (List.nil_subset _)

private theorem gives_staticStatement (hg : g.ReadsRows) (hstart : Opens g.source s start)
    (hplain : BeginsPlain s) :
    StatesFrom g.source start s (g.staticStatement start) := by
  refine gives_next.bind fun word s₁ hword l₁ => ?_
  have hitems : Collects g.source id g.staticItem := fun s => (gives_staticItem hg).imp fun _ _ _ _ h => h.1
  have hawaits : Gives g.source (commaSeparated isTerminator g.staticItem) s₁ fun values rest =>
      Awaits g.source start (values.flatMap id) rest :=
    awaits_commaSeparated _ (.of_takes hword (hplain _ _ hword.tokens)) fun s' l' =>
      (gives_staticItem hg).imp fun _ _ _ _ h => h.2 start (hstart.ahead.leads (l₁.trans l').leads)
  have hrows := (collects_commaSeparated isTerminator hitems).flat s₁
  refine (hrows.and hawaits).bind fun values s₂ h l₂ => ?_
  obtain ⟨hrow, hawait⟩ := h
  rw [List.flatMap_id] at hawait
  refine (gives_terminator hawait).bind fun _ s₃ hends l₃ => ?_
  exact gives_finishStatement (hrow.extend l₃).loosen hstart.isBoundary (hstart.le_last hword) (hends _ rfl)

/-- Where the list breaks off, no mark follows either, or it is the mark that stands in the way. -/
theorem gives_unsetStatement (hg : g.ReadsRows) (hstart : Opens g.source s start) :
    StatesFrom g.source start s (g.unsetStatement start) := by
  refine gives_next.bind fun word s₁ hword l₁ => (gives_symbol "(").bind fun opener s₂ hopener l₂ => ?_
  have hle := hstart.le_last hword
  have hlist := gives_bracketed ")" ([·]) hopener.1 hopener.2 (by decide) fun s =>
    (hg.value .lowest).imp fun _ _ _ _ hvalue => hvalue.gathered.filled
  refine hlist.bind fun values s₃ h l₃ => ?_
  rw [List.flatMap_singleton'] at h
  have hterminator : Gives g.source terminator s₃ fun _ rest =>
      EndsBy g.source ⟨.statement .unset, ⟨start, rest.reach⟩, values⟩ rest.last := by
    cases h.ends with
    | closed mark hbehind hmark =>
      have hawaits : Awaits g.source start values s₃ :=
        .of_isBehind hbehind (endsStatement_of_symbol (of_decide_eq_true hmark) (by decide))
      exact (gives_terminator hawaits).imp fun _ _ _ _ hends => hends _ rfl
    | broken t hfront hreach hoverruns =>
      refine gives_terminator_cases.imp fun _ rest _ _ hrest => hrest.imp_right ?_
      rintro ⟨u, hover, -⟩
      obtain ⟨tokens, hfront⟩ := hfront
      obtain ⟨tokens', hfront'⟩ := hover.front
      rw [hfront] at hfront'
      obtain ⟨rfl, -⟩ := List.cons.inj hfront'
      have hsame : rest.reach = s₃.reach := hover.reach.trans hreach.symm
      refine hoverruns _ ⟨?_, List.Subset.refl _, fun c hc => .inl hc⟩ (List.mem_singleton.2 rfl) hsame
      exact (hstart.leads l₁.leads).ahead.le hopener.1.tokens
  refine hterminator.bind fun _ s₄ hends l₄ => ?_
  exact gives_finishStatement (h.row.extend l₄).loosen hstart.isBoundary (by grind) hends

private theorem collects_declareItem (hg : g.ReadsRows) : Collects g.source ([·]) g.declareItem := by
  intro s
  refine Gives.after fun _ s₁ l₁ => Gives.after fun _ s₂ l₂ => ?_
  exact (hg.collects_expression .lowest s₂).imp fun value rest _ _ hrow =>
    Row.lower hrow (l₁.trans l₂).last_le

private theorem gives_declareStatement (hg : g.ReadsRows) (hstart : Opens g.source s start) :
    StatesFrom g.source start s (g.declareStatement start) := by
  refine gives_next.bind fun word s₁ hword l₁ => Gives.after fun _ s₂ l₂ => ?_
  have hle := hstart.le_last hword
  refine (gives_enclosed ")" (collects_declareItem hg)).bind fun values s₃ h l₃ => ?_
  obtain ⟨hrow, hreach⟩ := h
  rw [List.flatMap_singleton'] at hrow
  have hhead := hrow.weaken (Nat.le_refl _) (Nat.le_refl _) hreach (Nat.le_refl _)
  refine (gives_body hg _ hhead.loosen).bind fun ns s₄ h l₄ => ?_
  exact gives_finishStatement h.1 hstart.isBoundary (by grind) (h.2 _ _ rfl rfl)

private theorem gives_constantStatement (hg : g.ReadsRows) (hstart : Opens g.source s start)
    (hplain : BeginsPlain s) :
    StatesFrom g.source start s (g.constantStatement start) := by
  refine gives_next.bind fun word s₁ hword l₁ => ?_
  have hle := hstart.le_last hword
  have hitems : Gives g.source (commaSeparated isTerminator g.constantItem) s₁ fun values rest =>
      Awaits g.source start (values.flatMap fun _ => []) rest :=
    awaits_commaSeparated _ (.of_takes hword (hplain _ _ hword.tokens)) fun s' l' =>
      awaits_constantItem hg (hstart.ahead.leads (l₁.trans l').leads)
  refine hitems.bind fun values s₂ hawaits l₂ => ?_
  refine (gives_terminator hawaits.of_flatMap_nil).bind fun _ s₃ hends l₃ => ?_
  exact gives_finishLeaf hstart.isBoundary (by grind) (hends _ rfl)

/-! ### Imports -/

private theorem endsStatement_of_isPathName {t : Token} (h : isPathName t = true) :
    endsStatement t = false := by
  simp only [isPathName, Bool.or_eq_true, decide_eq_true_eq] at h
  rcases h with (hkind | hkind) | hword
  · simp [endsStatement, isTerminator, Token.isSymbol, hkind]
  · simp [endsStatement, isTerminator, Token.isSymbol, hkind]
  · exact endsStatement_of_isWord hword

private theorem awaits_aliasedName : Gives source aliasedName s fun _ rest => Awaits source start [] rest := by
  refine (gives_nextSuchThat _).bind fun name s₁ hname l₁ => ?_
  refine (gives_skipKeyword "as").bind fun found s₂ hskip l₂ => gives_ite (fun _ => ?_) fun hfound => ?_
  · exact (gives_nextSuchThat _).bind fun other s₃ hother l₃ =>
      gives_pure fun _ => .of_takes hother.1 (endsStatement_of_isWord hother.2)
  · obtain ⟨rfl, -⟩ | ⟨-, hrests⟩ := hskip
    · exact absurd rfl hfound
    · refine gives_pure fun _ => Awaits.of_tokens_eq ?_ hrests.tokens
      exact .of_takes hname.1 (endsStatement_of_isPathName hname.2)

private theorem awaits_nameGroup (item : TokenParser Unit) :
    Gives source (nameGroup item) s fun _ rest => Awaits source start [] rest := by
  refine Gives.after fun _ s₁ l₁ => Gives.after fun _ s₂ l₂ => Gives.after fun _ s₃ l₃ => ?_
  have hlist : Gives source (enclosed "\x7d" item) s₃ fun _ rest => Awaits source start [] rest :=
    Gives.after fun _ s₄ l₄ => (gives_symbol _).bind fun brace s₅ hbrace l₅ =>
      gives_pure fun _ => .of_takes hbrace.1 (endsStatement_of_symbol hbrace.2 (by decide))
  exact hlist.bind fun _ _ hawaits _ => gives_pure fun _ => hawaits

private theorem awaits_importedNames (start : Nat) :
    Gives source importedNames s fun _ rest => Awaits source start [] rest := by
  have single : ∀ s', Gives source (do let _ ← separated aliasedName) s' fun _ rest =>
      Awaits source start [] rest := by
    intro s'
    have hnames : Gives source (separated aliasedName) s' fun values rest =>
        Awaits source start (values.flatMap fun _ => []) rest :=
      awaits_separated fun _ _ => awaits_aliasedName
    exact hnames.bind fun _ _ hawaits _ => gives_pure fun _ => hawaits.of_flatMap_nil
  refine Gives.after fun kinded s₁ l₁ => gives_ite (fun _ => ?_) fun _ => ?_
  · refine Gives.after fun grouped s₂ l₂ => Gives.after fun _ s₃ l₃ => gives_ite (fun _ => ?_) fun _ => ?_
    · exact awaits_nameGroup _
    · exact single s₃
  · refine Gives.after fun grouped s₂ l₂ => gives_ite (fun _ => ?_) fun _ => ?_
    · exact awaits_nameGroup _
    · exact single s₂

private theorem gives_useStatement (hstart : Opens source s start) :
    StatesFrom source start s (useStatement start) := by
  refine gives_next.bind fun word s₁ hword l₁ => ?_
  have hle := hstart.le_last hword
  refine (awaits_importedNames start).bind fun _ s₂ hawaits l₂ => ?_
  refine (gives_terminator hawaits).bind fun _ s₃ hends l₃ => ?_
  exact gives_finishLeaf hstart.isBoundary (by grind) (hends _ rfl)

private theorem gives_gotoStatement (hstart : Opens source s start) :
    StatesFrom source start s (gotoStatement start) := by
  refine gives_next.bind fun word s₁ hword l₁ => (gives_nextSuchThat _).bind fun name s₂ hname l₂ => ?_
  have hle := hstart.le_last hword
  have hawaits : Awaits source start [] s₂ := .of_takes hname.1 (endsStatement_of_isWord hname.2)
  refine (gives_terminator hawaits).bind fun _ s₃ hends l₃ => ?_
  exact gives_finishLeaf hstart.isBoundary (by grind) (hends _ rfl)

private theorem gives_labelStatement (hstart : Opens source s start) :
    StatesFrom source start s (labelStatement start) := by
  refine gives_next.bind fun word s₁ hword l₁ => gives_next.bind fun colon s₂ hcolon l₂ => ?_
  have hle := hstart.le_last hword
  exact gives_finishLeaf hstart.isBoundary (by grind) (.inl (by grind))

private theorem gives_haltStatement (hstart : Opens source s start) :
    StatesFrom source start s (haltStatement start) := by
  refine gives_next.bind fun word s₁ hword l₁ => Gives.after fun _ s₂ l₂ => ?_
  have hle := hstart.le_last hword
  refine (gives_symbol ")").bind fun closer s₃ hcloser l₃ => ?_
  have hawaits : Awaits source start [] s₃ :=
    .of_takes hcloser.1 (endsStatement_of_symbol hcloser.2 (by decide))
  refine (gives_terminator hawaits).bind fun _ s₄ hends l₄ => ?_
  exact gives_finishLeaf hstart.isBoundary (by grind) (hends _ rfl)

/-! ### Namespaces -/

/-- Statements up to where the last one that was read ends, or nothing behind `s`. -/
structure Extent (source : Source) (s : Stream) (ns : List Node) (stop : Nat) (rest : Stream) : Prop where
  stream : ∃ s' : Stream, s'.Reads source ∧ s'.Later rest ∧ s'.Passes rest ∧ s.Later s' ∧ stop = s'.reach ∧
    StatementRow source s.last ns s'.last s'.reach ∧ (ns = [] ∧ s' = s ∨ Settled ns s')

private theorem gives_recoveredExtent (hg : g.ReadsRows) (ends : Token → Bool) :
    Gives g.source (g.recoveredExtent ends) s fun result rest =>
      Extent g.source s result.1 result.2 rest := by
  refine gives_reach.bind fun stop s₀ hstop l₀ => Gives.of_reads fun hs => ?_
  obtain ⟨rfl, rfl⟩ := hstop
  refine gives_repeating (fun state s' => Extent g.source s₀ state.1.reverse.flatten state.2 s')
    ⟨s₀, hs, l₀, .inl (.refl s₀), l₀, rfl, .nil (Nat.le_refl _) hs.last_le_reach, .inl ⟨rfl, rfl⟩⟩
    fun state s₁ _ hinv => ?_
  obtain ⟨middle, hmiddle, hlater, hpasses, hfirst, hstop, hrow, hend⟩ := hinv.stream
  refine gives_peek?.bind fun found s₂ hfound l₂ => Gives.of_reads fun hs₂ => ?_
  have hpasses₂ := hpasses.trans (.inl hfound.1)
  have hextent : Extent g.source s₀ state.1.reverse.flatten state.2 s₂ :=
    ⟨middle, hmiddle, hlater.trans l₂, hpasses₂, hfirst, hstop, hrow, hend⟩
  cases found with
  | none => exact gives_pure fun _ => hextent
  | some token =>
    refine gives_ite (fun _ => gives_pure fun _ => hextent) fun _ => ?_
    refine hg.gives_recovered.bind fun found s₃ hstatement l₃ => ?_
    cases found with
    | none =>
      refine gives_pure fun _ => ⟨middle, hmiddle, (hlater.trans l₂).trans l₃, ?_, hfirst, hstop, hrow, hend⟩
      exact hpasses₂.trans (hstatement.2 rfl)
    | some ns =>
      refine gives_reach.bind fun place s₄ hplace l₄ => gives_pure fun hs₄ => ?_
      obtain ⟨rfl, rfl⟩ := hplace
      have hns := hstatement.1 ns rfl
      have hsum := (hrow.extend (hlater.trans l₂)).append hs₂ hns.toStatementRow (Nat.le_refl _) l₃.reach_le
      refine ⟨s₄, hs₄, l₄, .inl (.refl s₄), hfirst.trans ((hlater.trans l₂).trans l₃), rfl, ?_, .inr ?_⟩
      · simpa using hsum
      · exact hns.settled.mono (by simp)

private theorem awaits_namespaceName (h : Awaits source start [] s) :
    Gives source namespaceName s fun _ rest => Awaits source start [] rest := by
  refine (gives_nextIs _ 0).bind fun found s₁ hrests l₁ => gives_ite (fun _ => ?_) fun _ => ?_
  · exact (gives_nextSuchThat _).bind fun name s₂ hname l₂ =>
      gives_pure fun _ => .of_takes hname.1 (endsStatement_of_isPathName hname.2)
  · exact gives_pure fun _ => h.of_tokens_eq hrests.tokens

private theorem gives_namespaceStatement (hg : g.ReadsRows) (hstart : Opens g.source s start)
    (hplain : BeginsPlain s) :
    StatesFrom g.source start s (g.namespaceStatement start) := by
  refine gives_next.bind fun word s₁ hword l₁ => ?_
  have hle := hstart.le_last hword
  have hname : Awaits g.source start [] s₁ := .of_takes hword (hplain _ _ hword.tokens)
  refine (awaits_namespaceName hname).bind fun _ s₂ hawaits l₂ => ?_
  refine (gives_nextIs _ 0).bind fun found s₃ hrests l₃ => gives_ite (fun _ => ?_) fun _ => ?_
  · refine (gives_block hg).bind fun ns s₄ hns l₄ => ?_
    exact gives_finishStatement hns.1.toRow hstart.isBoundary (by grind) (.inl hns.2)
  · refine (gives_terminator (hawaits.of_tokens_eq hrests.tokens)).bind fun _ s₄ hends l₄ => ?_
    refine (gives_recoveredExtent hg _).bind fun result s₅ hresult l₅ => gives_pure fun _ => ?_
    obtain ⟨ns, stop⟩ := result
    obtain ⟨middle, hmiddle, hlater, hpasses, hfirst, rfl, hrow, hend⟩ := hresult.stream
    refine Declared.passes ?_ hlater hpasses
    refine .close hrow.toRow hmiddle trivial rfl hstart.isBoundary (by grind) ?_
    rcases hend with ⟨rfl, rfl⟩ | hsettled
    · exact hends _ rfl
    · exact hrow.toRow.endsBy hsettled (List.Subset.refl _)

/-! ### Other statements -/

private theorem gives_expressionStatement (hg : g.ReadsRows) :
    StatesFrom g.source s.last s g.expressionStatement := by
  refine (hg.value .lowest).bind fun value s₁ hvalue l₁ => Gives.of_reads fun hs₁ => ?_
  have hrow := hvalue.row
  have hawaits : Awaits g.source value.span.start [value] s₁ :=
    .of_last_le hs₁ (List.mem_singleton.2 rfl) hvalue.covers
  refine (gives_terminator hawaits).bind fun _ s₂ hends l₂ => StatesFrom.lower ?_ hrow.le_start
  exact gives_finishStatement (hrow.from_start.extend l₂).loosen hrow.isBoundary_start (Nat.le_refl _)
    (hends _ rfl)

private theorem gives_closureStatement (hg : g.ReadsRows) (hstart : Opens g.source s start) :
    StatesFrom g.source start s (g.closureStatement start) := by
  refine (gives_unnamedFunction hg hstart).bind fun n s₁ hn l₁ => Gives.of_reads fun hs₁ => ?_
  have hawaits : Awaits g.source start [n] s₁ :=
    .of_last_le hs₁ (List.mem_singleton.2 rfl) (hn.stop ▸ hs₁.last_le_reach)
  refine (gives_terminator hawaits).bind fun _ s₂ hends l₂ => ?_
  exact gives_finishStatement (hn.row.extend l₂).loosen hstart.isBoundary (Nat.le_refl _) (hends _ rfl)

private theorem gives_functionStatement (hg : g.ReadsRows) (hstart : Opens g.source s start) :
    StatesFrom g.source start s (g.functionStatement start) := by
  refine Gives.after fun unnamed s₁ l₁ => gives_ite (fun _ => ?_) fun _ => ?_
  · exact gives_closureStatement hg (hstart.leads l₁.leads)
  · exact gives_declaration (declares_functionDeclaration hg) (hstart.leads l₁.leads)

/-- A token that is seen and is no mark begins a statement that may end without one. -/
theorem beginsPlain_of_sees {s' : Stream} {t : Token} (h : s.Sees source t s')
    (ht : endsStatement t = false) : BeginsPlain s' := by
  intro u tokens htokens
  obtain ⟨items, hitems⟩ := h.front
  rw [Stream.tokens_of_items hitems] at htokens
  obtain ⟨rfl, -⟩ := List.cons.inj htokens
  exact ht

private theorem endsStatement_of_keyword {t : Token} {word : String} (h : t.kind = .keyword word) :
    endsStatement t = false := by
  simp [endsStatement, isTerminator, Token.isSymbol, h]

private theorem gives_attributedStatement (hg : g.ReadsRows) (hstart : Opens g.source s start) :
    StatesFrom g.source start s (g.attributedStatement start) := by
  refine Gives.after fun _ s₁ l₁ => gives_peek.bind fun token s₂ hsees l₂ => ?_
  have hopens := hstart.leads (l₁.trans l₂).leads
  split
  · exact gives_functionStatement hg hopens
  · exact gives_closureStatement hg hopens
  · exact gives_declaration (declares_interfaceDeclaration hg) hopens
  · exact gives_declaration (declares_traitDeclaration hg) hopens
  · exact gives_declaration (declares_enumDeclaration hg) hopens
  · rename_i hkind
    have htoken : Opens g.source s₂ token.span.start := ⟨hsees.isBoundary, hsees.ahead⟩
    have hle := le_of_sees hsees (hstart.leads l₁.leads).ahead
    exact (gives_constantStatement hg htoken
      (beginsPlain_of_sees hsees (endsStatement_of_keyword hkind))).lower hle
  · exact gives_declaration (declares_classDeclaration hg) hopens
  · refine Gives.after fun found s₃ l₃ => gives_ite (fun _ => ?_) fun _ => gives_ite (fun _ => ?_) fun _ => ?_
    · exact gives_closureStatement hg (hopens.leads l₃.leads)
    · exact gives_declaration (declares_classDeclaration hg) (hopens.leads l₃.leads)
    · exact gives_fail

section Words

variable {s₀ : Stream} {token : Token} (hg : g.ReadsRows) (hsees : s₀.Sees g.source token s)
  (hplain : endsStatement token = false)
include hg hsees

private theorem gives_wordStatement : StatesFrom g.source s₀.last s (g.wordStatement token.span.start) := by
  have hopens : Opens g.source s token.span.start := ⟨hsees.isBoundary, hsees.ahead⟩
  refine Gives.after fun isLabel s₁ l₁ => gives_ite (fun _ => ?_) fun _ => ?_
  · exact (gives_labelStatement (hopens.leads l₁.leads)).lower hsees.last_le
  · exact (gives_expressionStatement hg).lower (by grind)

include hplain

private theorem gives_modifierStatement : StatesFrom g.source s₀.last s
    (g.modifierStatement token.span.start) := by
  have hopens : Opens g.source s token.span.start := ⟨hsees.isBoundary, hsees.ahead⟩
  have htests : Gives g.source (allOf [atKeyword "static", nextIs (·.kind = .variable) 1]) s
      fun _ rest => s.Rests rest := by
    refine gives_allOf _ fun test htest s' => ?_
    simp only [List.mem_cons, List.not_mem_nil, or_false] at htest
    rcases htest with rfl | rfl
    · exact gives_nextIs _ 0
    · exact gives_nextIs _ 1
  refine htests.bind fun isStatic s₁ hrests l₁ => gives_ite (fun _ => ?_) fun _ => ?_
  · have hbegins : BeginsPlain s₁ := by
      rw [BeginsPlain, hrests.tokens]
      exact beginsPlain_of_sees hsees hplain
    exact (gives_staticStatement hg (hopens.leads l₁.leads) hbegins).lower hsees.last_le
  refine Gives.after fun makes s₂ l₂ => gives_ite (fun _ => ?_) fun _ => ?_
  · exact (gives_expressionStatement hg).lower (by grind)
  · exact (gives_declaration (declares_classDeclaration hg) (hopens.leads (l₁.trans l₂).leads)).lower
      hsees.last_le

omit hplain in
private theorem gives_keywordStatement {word : String} (hkind : token.kind = .keyword word) :
    StatesFrom g.source s₀.last s (g.keywordStatement token.span.start word) := by
  have hplain := endsStatement_of_keyword hkind
  have hbegins := beginsPlain_of_sees hsees hplain
  have hstart : Opens g.source s token.span.start := ⟨hsees.isBoundary, hsees.ahead⟩
  have lower : ∀ {p}, StatesFrom g.source token.span.start s p → StatesFrom g.source s₀.last s p :=
    fun h => h.lower hsees.last_le
  have leave : ∀ {form}, endsWithMark (.statement form) = true → (word = "break" ∨ word = "continue") →
      StatesFrom g.source s₀.last s (g.optionalValueStatement form false token.span.start) := by
    intro form hform hword
    refine lower (gives_leaveStatement hg form hform hstart fun t tokens htokens => ?_)
    obtain ⟨items, hitems⟩ := hsees.front
    rw [Stream.tokens_of_items hitems] at htokens
    obtain ⟨rfl, -⟩ := List.cons.inj htokens
    simpa [Token.isKeyword, hkind] using hword
  -- One case for each word, in the order of the grammar.
  unfold keywordStatement
  split
  · exact lower (gives_ifStatement hg hstart)
  · exact lower (gives_whileStatement hg hstart)
  · exact lower (gives_doWhileStatement hg hstart)
  · exact lower (gives_forStatement hg hstart)
  · exact lower (gives_foreachStatement hg hstart)
  · exact lower (gives_switchStatement hg hstart)
  · exact lower (gives_tryStatement hg hstart)
  · exact lower (gives_returnStatement hg hstart hbegins)
  · exact leave rfl (.inl rfl)
  · exact leave rfl (.inr rfl)
  · exact lower (gives_listStatement hg _ rfl hstart hbegins)
  · exact lower (gives_globalStatement hstart hbegins)
  · exact lower (gives_unsetStatement hg hstart)
  · exact lower (gives_declareStatement hg hstart)
  · exact lower (gives_constantStatement hg hstart hbegins)
  · exact lower (gives_useStatement hstart)
  · exact lower (gives_namespaceStatement hg hstart hbegins)
  · exact lower (gives_gotoStatement hstart)
  · exact lower (gives_haltStatement hstart)
  · exact lower (gives_functionStatement hg hstart)
  · exact lower (gives_declaration (declares_classDeclaration hg) hstart)
  · exact lower (gives_declaration (declares_interfaceDeclaration hg) hstart)
  · exact lower (gives_declaration (declares_traitDeclaration hg) hstart)
  · exact lower (gives_declaration (declares_enumDeclaration hg) hstart)
  · refine gives_ite (fun _ => ?_) fun _ => ?_
    · exact gives_modifierStatement hg hsees hplain
    · exact gives_wordStatement hg hsees

end Words

theorem gives_statementStep (hg : g.ReadsRows) :
    Gives g.source g.statementStep s fun ns rest => Declared g.source s.last ns rest := by
  refine gives_peek.bind fun token s₁ hsees l₁ => ?_
  have hopens : Opens g.source s₁ token.span.start := ⟨hsees.isBoundary, hsees.ahead⟩
  have hlo := hsees.last_le
  have skip : Gives g.source (do let _ ← next; return []) s₁ fun ns rest =>
      Declared g.source s.last ns rest :=
    gives_next.bind fun _ s₂ htakes l₂ => gives_pure fun _ =>
      ⟨.nil (l₁.trans l₂).last_le l₂.last_le_reach, .inl (by grind)⟩
  split
  · refine gives_next.bind fun text s₂ htext l₂ => StatesFrom.lower ?_ hlo
    exact gives_finishLeaf hopens.isBoundary (hopens.le_last htext) (.inl (by grind))
  · exact skip
  · exact skip
  · rename_i hkind
    refine (gives_listStatement hg _ rfl hopens (beginsPlain_of_sees hsees ?_)).lower hlo
    simp [endsStatement, isTerminator, Token.isSymbol, hkind]
  · exact skip
  · exact (gives_block hg).imp fun ns rest _ _ h => ⟨h.1.lower (by grind), .inl h.2⟩
  · exact (gives_attributedStatement hg hopens).lower hlo
  · rename_i hkind
    exact gives_keywordStatement hg hsees hkind
  · exact gives_wordStatement hg hsees
  · exact (gives_expressionStatement hg).lower l₁.last_le

theorem states_program (hg : g.ReadsRows) : States g.source id g.program := by
  intro s
  refine Gives.of_reads fun hs => gives_repeating (Grouped g.source s) (.nil hs) fun groups s₁ _ hinv => ?_
  refine (gives_recover gives_peek?).bind fun found s₂ hfound l₂ => Gives.of_reads fun hs₂ => ?_
  have hpasses : s₁.Passes s₂ := by
    cases found with
    | none => exact hfound.2 rfl
    | some seen => exact .inl (hfound.1 seen rfl).1
  have hgroups : Grouped g.source s groups s₂ := hinv.passes l₂ hpasses
  split
  · refine hg.gives_recovered.bind fun found s₃ hstatement l₃ => ?_
    cases found with
    | none => exact gives_pure fun _ => hgroups.passes l₃ (hstatement.2 rfl)
    | some ns => exact gives_pure fun _ => hgroups.push hs₂ l₃ (hstatement.1 ns rfl)
  · exact gives_pure fun _ => hgroups

end CaretContext.Php.Grammar
