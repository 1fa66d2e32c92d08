import CaretContext.Proofs.Php.Grammar

/-!
# Rows of functions, classes and their members
-/

namespace CaretContext.Php.Grammar

open TokenParser

variable {g : Grammar} {s : Stream} {start : Nat}

/-! ### Blocks -/

private theorem states_recoveredStatements (hg : g.ReadsRows) (ends : Token → Bool) :
    States g.source id (g.recoveredStatements ends) := by
  intro s
  refine Gives.of_reads fun hs => gives_repeating (Grouped g.source s) (.nil hs) fun groups s₁ _ hinv => ?_
  refine gives_peek?.bind fun found s₂ hfound l₂ => Gives.of_reads fun hs₂ => ?_
  have hgroups : Grouped g.source s groups s₂ := hinv.passes l₂ (.inl hfound.1)
  cases found with
  | none => exact gives_pure fun _ => hgroups
  | some token =>
    refine gives_ite (fun _ => gives_pure fun _ => hgroups) fun _ => ?_
    refine hg.gives_recovered.bind fun found s₃ hstatement l₃ => ?_
    cases found with
    | none => exact gives_pure fun _ => hgroups.passes l₃ (hstatement.2 rfl)
    | some ns => exact gives_pure fun _ => hgroups.push hs₂ l₃ (hstatement.1 ns rfl)

/-- Statements in braces stand behind all that was read before. -/
theorem gives_block (hg : g.ReadsRows) : Gives g.source g.block s fun ns rest =>
    StatementRow g.source s.reach ns rest.last rest.reach ∧ rest.reach ≤ rest.last := by
  refine (gives_symbol "\x7b").bind fun opener s₁ hopener l₁ => ?_
  refine (states_recoveredStatements hg _ s₁).bind fun ns s₂ hrow l₂ => ?_
  refine (gives_symbol "\x7d").bind fun closer s₃ hcloser l₃ => gives_pure fun _ => ?_
  exact ⟨hrow.weaken (by grind) l₃.last_le l₃.reach_le l₃.last_le_reach, by grind⟩

/-! ### Parameters -/

private theorem gives_hooks (g : Grammar) : Gives g.source g.hooks s fun _ rest =>
    ∃ u, rest.IsBehind g.source u ∧ u.isSymbol "\x7d" = true := by
  refine Gives.after fun _ s₁ l₁ => Gives.after fun _ s₂ l₂ => ?_
  refine (gives_symbol "\x7d").bind fun closer s₃ hcloser l₃ => gives_pure fun _ => ?_
  exact ⟨closer, hcloser.1.isBehind, by simp [Token.isSymbol, hcloser.2]⟩

private theorem gives_parameter (hg : g.ReadsRows) : Gives g.source g.parameter s fun n rest =>
    Filled g.source ")" s [n] rest := by
  refine (gives_parameterHead hg).bind fun n s₁ hn l₁ => ?_
  obtain ⟨hrow, hstop⟩ := hn
  refine (gives_nextIs _ 0).bind fun found s₂ hrests l₂ => gives_ite (fun _ => ?_) fun _ => ?_
  · refine (gives_hooks g).bind fun _ s₃ hhooks l₃ => gives_pure fun _ => ?_
    obtain ⟨u, hu, hbrace⟩ := hhooks
    exact ⟨hrow.extend (l₂.trans l₃), .inr (.inr ⟨u, hu, isSymbol_eq_false hbrace (by decide)⟩)⟩
  · refine gives_pure fun _ => ⟨hrow.extend l₂, .inr (.inl ⟨n, List.mem_singleton.2 rfl, ?_⟩)⟩
    rw [hrests.last, hstop]
    exact hrow.hi_le_stop

private theorem gives_parameterList (hg : g.ReadsRows) : Gives g.source g.parameterList s
    fun parameters rest => Row g.source .strict s.reach parameters rest.last rest.reach := by
  refine (gives_symbol "(").bind fun opener s₁ hopener l₁ => ?_
  have hlist := gives_bracketed ")" ([·]) hopener.1 hopener.2 (by decide) fun s => gives_parameter hg
  refine hlist.imp fun parameters rest _ _ h => ?_
  have hrow := h.row.lower hopener.1.reach_le
  simpa using hrow

/-! ### Functions without a name -/

theorem gives_unnamedFunction (hg : g.ReadsRows) (hstart : Opens g.source s start) :
    Gives g.source (g.unnamedFunction start) s (Started g.source start s) := by
  refine Gives.after fun _ s₁ l₁ => ?_
  refine (gives_skipKeyword "fn").bind fun isArrow s₂ hskip l₂ => ?_
  obtain ⟨rfl, word, hword, -⟩ | ⟨rfl, -⟩ := hskip
  · have hle := (hstart.leads l₁.leads).le_last hword
    refine Gives.after fun _ s₃ l₃ => (gives_parameterList hg).bind fun parameters s₄ hrow l₄ => ?_
    refine Gives.after fun _ s₅ l₅ => (gives_symbol "=>").bind fun arrow s₆ harrow l₆ => ?_
    refine (hg.value .lowest).bind fun body s₇ hbody l₇ => gives_close fun hs => ?_
    have hchildren := hrow.append hbody.row (by grind)
    have hends := hbody.settles.settled (by grind)
    exact .of_close hchildren.loosen hs trivial hstart.isBoundary (by grind) (by grind)
      (hchildren.endsBy hends (List.subset_append_right _ _))
  · refine (gives_keyword "function").bind fun word s₃ hword l₃ => ?_
    have hle := (hstart.leads (l₁.trans l₂).leads).le_last hword.1
    refine Gives.after fun _ s₄ l₄ => (gives_parameterList hg).bind fun parameters s₅ hrow l₅ => ?_
    refine Gives.after fun _ s₆ l₆ => Gives.after fun _ s₇ l₇ => ?_
    refine (gives_block hg).bind fun body s₈ hbody l₈ => gives_close fun hs => ?_
    have hchildren := hrow.loosen.append hbody.1.toRow (by grind)
    exact .of_close hchildren hs trivial hstart.isBoundary (by grind) (by grind) (.inl hbody.2)

theorem gives_functionExpression (hg : g.ReadsRows) :
    Gives g.source g.functionExpression s (Phrase g.source s) := by
  refine gives_startOfNext.bind fun start s₁ hstart l₁ => ?_
  obtain ⟨hopens, hlast, -, hahead⟩ := hstart
  refine Gives.after fun _ s₂ l₂ => ?_
  refine (gives_unnamedFunction hg (hopens.leads l₂.leads)).imp fun n rest _ _ h => ?_
  exact h.phrase (l₁.trans l₂) hlast hahead

/-! ### Class members -/

/-- The parser gives a statement that starts at `start`. -/
def Declares (source : Source) (start : Nat) (p : TokenParser Node) : Prop :=
  ∀ s, Opens source s start → Gives source p s fun n rest => Declared source start [n] rest

private theorem gives_close_leaf {source : Source} {kind : Kind Node} (hkind : kind.nodes = [])
    (hbacked : IsBacked source kind) (hcategory : kind.category = .statement)
    (hb : IsBoundary source start) (hle : start ≤ s.last)
    (hends : EndsBy source ⟨kind, ⟨start, s.reach⟩, []⟩ s.last) :
    Gives source (close kind start []) s fun n rest => Declared source start [n] rest := by
  refine gives_close fun hs => ?_
  have hnone : Row source (looseness kind) s.last (kind.nodes ++ []) s.last s.reach := by
    rw [hkind]
    exact .nil (Nat.le_refl _) hs.last_le_reach
  exact .close hnone hs hbacked hcategory hb hle hends

private theorem gives_methodBody (hg : g.ReadsRows) (lo : Nat) (ns : List Node)
    (h : Row g.source .statements lo ns s.last s.reach) : Gives g.source g.methodBody s fun body rest =>
      Row g.source .statements lo (ns ++ body) rest.last rest.reach ∧ rest.reach ≤ rest.last := by
  refine (gives_skipSymbol ";").bind fun found s₁ hskip l₁ => ?_
  obtain ⟨rfl, mark, hmark, -⟩ | ⟨rfl, hrests⟩ := hskip
  · refine gives_pure fun _ => ⟨?_, by grind⟩
    rw [List.append_nil]
    exact h.extend l₁
  · exact (gives_block hg).imp fun body rest _ _ hbody => ⟨h.append hbody.1.toRow l₁.reach_le, hbody.2⟩

private theorem declares_method (hg : g.ReadsRows) : Declares g.source start (g.method start) := by
  intro s hstart
  refine (gives_keyword "function").bind fun word s₁ hword l₁ => ?_
  have hle := hstart.le_last hword.1
  refine Gives.after fun _ s₂ l₂ => Gives.after fun _ s₃ l₃ => ?_
  refine (gives_parameterList hg).bind fun parameters s₄ hrow l₄ => Gives.after fun _ s₅ l₅ => ?_
  refine (gives_methodBody hg _ _ (hrow.loosen.extend l₅)).bind fun body s₆ hbody l₆ => ?_
  exact gives_close fun hs => .close hbody.1 hs trivial rfl hstart.isBoundary (by grind) (.inl hbody.2)

theorem endsStatement_of_isWord {t : Token} (h : isWord t = true) : endsStatement t = false := by
  unfold isWord at h
  split at h <;> simp_all [endsStatement, isTerminator, Token.isSymbol]

theorem endsStatement_of_kind_variable {t : Token} (h : t.kind = .variable) : endsStatement t = false := by
  simp [endsStatement, isTerminator, Token.isSymbol, h]

/-- A constant ends with its value, which is not kept. -/
theorem awaits_constantItem (hg : g.ReadsRows) (hahead : s.Ahead start) :
    Gives g.source g.constantItem s fun _ rest => Awaits g.source start [] rest := by
  refine Gives.after fun _ s₁ l₁ => (gives_symbol "=").bind fun equals s₂ hequals l₂ => ?_
  have hasks : AsksForValue equals s₂ := .inl (by simp [Token.isSymbol, hequals.2])
  have hle := (hahead.leads l₁.leads).le hequals.1.tokens
  exact (hg.awaits_value hequals.1.isBehind hle hasks).bind fun _ _ hend _ => gives_pure fun _ => hend

private theorem declares_classConstant (hg : g.ReadsRows) : Declares g.source start
    (g.classConstant start) := by
  intro s hstart
  refine (gives_keyword "const").bind fun word s₁ hword l₁ => ?_
  have hle := hstart.le_last hword.1
  refine Gives.after fun _ s₂ l₂ => ?_
  have hitems : Gives g.source (separated g.constantItem) s₂ fun values rest =>
      Awaits g.source start (values.flatMap fun _ => []) rest :=
    awaits_separated fun s₃ l₃ =>
      awaits_constantItem hg (hstart.ahead.leads ((l₁.trans l₂).trans l₃).leads)
  refine hitems.bind fun values s₃ hawaits l₃ => ?_
  refine (gives_terminator hawaits.of_flatMap_nil).bind fun _ s₄ hends l₄ => ?_
  exact gives_close_leaf rfl trivial rfl hstart.isBoundary (by grind) (hends _ rfl)

private theorem declares_enumCase (hg : g.ReadsRows) : Declares g.source start (g.enumCase start) := by
  intro s hstart
  refine (gives_keyword "case").bind fun word s₁ hword l₁ => ?_
  have hle := hstart.le_last hword.1
  refine (gives_nextSuchThat _).bind fun name s₂ hname l₂ => ?_
  refine (gives_optionalValue hg).bind fun value s₃ hvalue l₃ => ?_
  have hawaits := hvalue.awaits start (hstart.ahead.leads (l₁.trans l₂).leads)
    (.of_takes hname.1 (endsStatement_of_isWord hname.2))
  refine (gives_terminator hawaits).bind fun _ s₄ hends l₄ => ?_
  exact gives_close_leaf rfl trivial rfl hstart.isBoundary (by grind) (hends _ rfl)

private theorem gives_traitRules {source : Source} :
    Gives source traitRules s fun _ rest => rest.reach ≤ rest.last := by
  refine (gives_nextIs_front _).bind fun found s₁ hfound l₁ => gives_ite (fun htrue => ?_) fun _ => ?_
  · obtain ⟨t, hsees, ht⟩ := hfound.1 htrue
    obtain ⟨items, hitems⟩ := hsees.front
    exact gives_terminator_of_front (Stream.tokens_of_items hitems) ht
  · refine Gives.after fun _ s₂ l₂ => Gives.after fun _ s₃ l₃ => ?_
    exact (gives_symbol "\x7d").bind fun brace s₄ hbrace l₄ => gives_pure fun _ => by grind

private theorem declares_traitUse (source : Source) : Declares source start (traitUse start) := by
  intro s hstart
  refine (gives_keyword "use").bind fun word s₁ hword l₁ => ?_
  have hle := hstart.le_last hword.1
  refine Gives.after fun _ s₂ l₂ => gives_traitRules.bind fun _ s₃ hends l₃ => ?_
  exact gives_close_leaf rfl trivial rfl hstart.isBoundary (by grind) (.inl hends)

private theorem gives_propertyItem (hg : g.ReadsRows) (hstart : Opens g.source s start) :
    Gives g.source g.propertyItem s fun _ rest => start ≤ rest.last ∧ Awaits g.source start [] rest := by
  refine (gives_expect _).bind fun name s₁ hname l₁ => ?_
  have hle := hstart.le_last hname.1
  refine (gives_optionalValue hg).bind fun value s₂ hvalue l₂ => gives_pure fun _ => ⟨by grind, ?_⟩
  have hkind := endsStatement_of_kind_variable (of_decide_eq_true hname.2)
  exact hvalue.awaits start (hstart.ahead.leads l₁.leads) (.of_takes hname.1 hkind)

private theorem gives_propertyEnd (hg : g.ReadsRows) (hstart : Opens g.source s start)
    (hawaits : Awaits g.source start [] s) : Gives g.source g.propertyEnd s fun _ rest =>
      EndsBy g.source ⟨.statement .property, ⟨start, rest.reach⟩, []⟩ rest.last := by
  refine (gives_nextIs _ 0).bind fun found s₁ hrests l₁ => gives_ite (fun _ => ?_) fun _ => ?_
  · refine Gives.after fun _ s₂ l₂ => Gives.after fun _ s₃ l₃ => ?_
    exact (gives_symbol "\x7d").bind fun brace s₄ hbrace l₄ => gives_pure fun _ => .inl (by grind)
  refine (gives_skipSymbol ",").bind fun found s₂ hskip l₂ => ?_
  obtain ⟨rfl, comma, hcomma, -⟩ | ⟨rfl, hrests'⟩ := hskip
  · have hitems : Gives g.source (separated g.propertyItem) s₂ fun values rest =>
        Awaits g.source start (values.flatMap fun _ => []) rest :=
      awaits_separated fun s₃ l₃ =>
        (gives_propertyItem hg (hstart.leads (l₁.trans (l₂.trans l₃)).leads)).imp fun _ _ _ _ h => h.2
    refine hitems.bind fun values s₃ hawaits l₃ => ?_
    exact (gives_terminator hawaits.of_flatMap_nil).imp fun _ _ _ _ hends => hends _ rfl
  · have hawaits' := (hawaits.of_tokens_eq hrests.tokens).of_tokens_eq hrests'.tokens
    exact (gives_terminator hawaits').imp fun _ _ _ _ hends => hends _ rfl

private theorem declares_property (hg : g.ReadsRows) : Declares g.source start (g.property start) := by
  intro s hstart
  refine Gives.after fun _ s₁ l₁ => Gives.after fun _ s₂ l₂ => ?_
  refine (gives_propertyItem hg (hstart.leads (l₁.trans l₂).leads)).bind fun _ s₃ hitem l₃ => ?_
  have hopens := hstart.leads ((l₁.trans l₂).trans l₃).leads
  refine (gives_propertyEnd hg hopens hitem.2).bind fun _ s₄ hends l₄ => ?_
  exact gives_close_leaf rfl trivial rfl hstart.isBoundary (by grind) hends

private theorem gives_modifiedMember (hg : g.ReadsRows) {constantStart : Nat} (hle : start ≤ constantStart)
    (hstart : Opens g.source s start) (hconstant : Opens g.source s constantStart) :
    Gives g.source (g.modifiedMember start constantStart) s fun n rest =>
      Declared g.source start [n] rest := by
  refine Gives.after fun _ s₁ l₁ => Gives.after fun token s₂ l₂ => ?_
  have hopens := hstart.leads (l₁.trans l₂).leads
  split
  · exact declares_method hg s₂ hopens
  · refine (declares_classConstant hg s₂ (hconstant.leads (l₁.trans l₂).leads)).imp fun n rest _ _ h => ?_
    exact h.lower hle
  · exact declares_property hg s₂ hopens

private theorem states_classMember (hg : g.ReadsRows) : States g.source ([·]) g.classMember := by
  intro s
  refine gives_startOfNext.bind fun start s₁ hstart l₁ => ?_
  obtain ⟨hopens, hlast, -, -⟩ := hstart
  have state : ∀ {p s'}, Gives g.source p s' (fun n rest => Declared g.source start [n] rest) →
      Gives g.source p s' fun n rest => Stated g.source s.last s [n] rest :=
    fun h => h.imp fun _ _ _ _ hn => (hn.lower hlast).stated
  refine Gives.after fun isUse s₂ l₂ => gives_ite (fun _ => ?_) fun _ => ?_
  · exact state (declares_traitUse g.source s₂ (hopens.leads l₂.leads))
  refine Gives.after fun _ s₃ l₃ => Gives.after fun isCase s₄ l₄ => ?_
  have hopens₄ := hopens.leads (l₂.trans (l₃.trans l₄)).leads
  refine gives_ite (fun _ => state (declares_enumCase hg s₄ hopens₄)) fun _ => ?_
  refine gives_startOfNext.bind fun constantStart s₅ hconstant l₅ => ?_
  obtain ⟨hconstant, -, -, hahead⟩ := hconstant
  exact state (gives_modifiedMember hg (hahead start hopens₄.ahead) (hopens₄.leads l₅.leads) hconstant)

/-! ### Classes -/

private theorem states_classMembers (hg : g.ReadsRows) : States g.source id g.classMembers := by
  intro s
  refine Gives.of_reads fun hs => gives_repeating
    (fun members s' => Stated g.source s.last s members.reverse s') (.nil hs) fun members s₁ _ hinv => ?_
  refine (gives_nextIs _ 0).bind fun ended s₂ hrests l₂ => Gives.of_reads fun hs₂ => ?_
  have hmembers := hinv.passes l₂ (.inl hrests)
  refine gives_ite (fun _ => gives_pure fun _ => hmembers) fun _ => ?_
  refine (gives_forward_recover (states_classMember hg s₂) fun _ _ _ => Stated.passes).bind
    fun found s₃ hfound l₃ => ?_
  cases found with
  | none => exact gives_pure fun _ => hmembers.passes l₃ (hfound.2 rfl)
  | some member =>
    refine gives_pure fun _ => ?_
    simp only [Turn.Keeps, List.reverse_cons]
    exact hmembers.append hs₂ (hfound.1 member rfl) (Nat.le_refl _) l₃.reach_le

private theorem gives_classBody (hg : g.ReadsRows) : Gives g.source g.classBody s fun members rest =>
    StatementRow g.source s.reach members rest.last rest.reach ∧ rest.reach ≤ rest.last := by
  refine (gives_symbol "\x7b").bind fun opener s₁ hopener l₁ => ?_
  refine (states_classMembers hg s₁).bind fun members s₂ hrow l₂ => ?_
  refine (gives_symbol "\x7d").bind fun closer s₃ hcloser l₃ => gives_pure fun _ => ⟨?_, by grind⟩
  exact (hrow.toStatementRow.lower (by grind)).extend l₃

theorem gives_anonymousClass (hg : g.ReadsRows) :
    Gives g.source g.anonymousClass s (Phrase g.source s) := by
  refine (gives_keyword "new").bind fun word s₁ hword l₁ => ?_
  refine Gives.after fun _ s₂ l₂ => Gives.after fun _ s₃ l₃ => Gives.after fun _ s₄ l₄ => ?_
  refine (gives_optionalArguments hg).bind fun arguments s₅ harguments l₅ => ?_
  have hrow : Row g.source .strict s₁.last arguments s₅.last s₅.reach := by
    rcases harguments with ⟨rfl, -⟩ | ⟨opener, hlist⟩
    · exact .nil (by grind) l₅.last_le_reach
    · have hnone : Row g.source .strict s₁.last [] s₄.last s₄.reach := .nil (by grind) l₄.last_le_reach
      exact hlist.append hnone
  refine Gives.after fun _ s₆ l₆ => Gives.after fun _ s₇ l₇ => ?_
  refine (gives_classBody hg).bind fun members s₈ hmembers l₈ => gives_close fun hs => ?_
  exact .of_word hword.1 (hrow.loosen.append hmembers.1.toRow (by grind)) hs trivial (.inl hmembers.2)

section Declarations

variable (hg : g.ReadsRows)
include hg

theorem declares_classDeclaration : Declares g.source start (g.classDeclaration start) := by
  intro s hstart
  refine Gives.after fun _ s₁ l₁ => (gives_keyword "class").bind fun word s₂ hword l₂ => ?_
  have hle := (hstart.leads l₁.leads).le_last hword.1
  refine Gives.after fun _ s₃ l₃ => Gives.after fun _ s₄ l₄ => Gives.after fun _ s₅ l₅ => ?_
  refine (gives_classBody hg).bind fun members s₆ hrow l₆ => gives_close fun hs => ?_
  exact .close hrow.1.toRow hs trivial rfl hstart.isBoundary (by grind) (.inl hrow.2)

theorem declares_interfaceDeclaration : Declares g.source start (g.interfaceDeclaration start) := by
  intro s hstart
  refine (gives_keyword "interface").bind fun word s₁ hword l₁ => ?_
  have hle := hstart.le_last hword.1
  refine Gives.after fun _ s₂ l₂ => Gives.after fun _ s₃ l₃ => ?_
  refine (gives_classBody hg).bind fun members s₄ hrow l₄ => gives_close fun hs => ?_
  exact .close hrow.1.toRow hs trivial rfl hstart.isBoundary (by grind) (.inl hrow.2)

theorem declares_traitDeclaration : Declares g.source start (g.traitDeclaration start) := by
  intro s hstart
  refine (gives_keyword "trait").bind fun word s₁ hword l₁ => Gives.after fun _ s₂ l₂ => ?_
  have hle := hstart.le_last hword.1
  refine (gives_classBody hg).bind fun members s₃ hrow l₃ => gives_close fun hs => ?_
  exact .close hrow.1.toRow hs trivial rfl hstart.isBoundary (by grind) (.inl hrow.2)

theorem declares_enumDeclaration : Declares g.source start (g.enumDeclaration start) := by
  intro s hstart
  refine (gives_keyword "enum").bind fun word s₁ hword l₁ => ?_
  have hle := hstart.le_last hword.1
  refine Gives.after fun _ s₂ l₂ => Gives.after fun _ s₃ l₃ => Gives.after fun _ s₄ l₄ => ?_
  refine (gives_classBody hg).bind fun members s₅ hrow l₅ => gives_close fun hs => ?_
  exact .close hrow.1.toRow hs trivial rfl hstart.isBoundary (by grind) (.inl hrow.2)

theorem declares_functionDeclaration : Declares g.source start (g.functionDeclaration start) := by
  intro s hstart
  refine (gives_keyword "function").bind fun word s₁ hword l₁ => ?_
  have hle := hstart.le_last hword.1
  refine Gives.after fun _ s₂ l₂ => Gives.after fun _ s₃ l₃ => ?_
  refine (gives_parameterList hg).bind fun parameters s₄ hrow l₄ => Gives.after fun _ s₅ l₅ => ?_
  refine (gives_block hg).bind fun body s₆ hbody l₆ => gives_close fun hs => ?_
  have hchildren := hrow.loosen.append hbody.1.toRow (by grind)
  exact .close hchildren hs trivial rfl hstart.isBoundary (by grind) (.inl hbody.2)

end Declarations

end CaretContext.Php.Grammar
