import CaretContext.Proofs.Php.FunctionNodes
import CaretContext.Proofs.Php.Operand
import CaretContext.Proofs.Php.Pieces

/-!
# Nodes of operands

Names are spelled by the tokens they were read from. A call follows what it calls, and what it calls has
run over the parenthesis only if it lacks its end.
-/

namespace CaretContext.Php.Grammar

open TokenParser

variable {g : Grammar} {source : Source} {s s' : Stream}

/-! ### Names -/

private theorem head_of_isVariableStart {t : Token} (ht : t ∈ tokensOf source) (h : isVariableStart t = true) :
    ∃ cs, t.text.toList = '$' :: cs := by
  obtain ⟨after, hfits⟩ := fits_of_mem_tokensOf ht
  simp only [isVariableStart, Token.isSymbol, Bool.or_eq_true, decide_eq_true_eq] at h
  rcases h with (h | h) | h <;> rw [h] at hfits
  · exact List.head?_eq_some_iff.1 hfits
  · exact ⟨[], hfits.resolve_left (by decide)⟩
  · exact ⟨['\x7b'], hfits.resolve_left (by decide)⟩

/-- What is read of a variable from its first token on is a dollar sign and its name. -/
theorem text?_variable {t : Token} {stop : Nat} (ht : t ∈ tokensOf source) (h : isVariableStart t = true)
    (hle : t.span.stop ≤ stop) (hb : IsBoundary source stop) :
    source.text? ⟨t.span.start, stop⟩ = some ("$" ++ textAfterFirst source ⟨t.span.start, stop⟩) := by
  have hspan := start_le_stop_of_mem_tokensOf ht
  obtain ⟨cs, hcs⟩ := head_of_isVariableStart ht h
  obtain ⟨before, middle, after, hchars, hstart, hsize, hslice⟩ :=
    (isBoundary_start ht).slice? hb (Nat.le_trans hspan hle)
  have htext : source.text? ⟨byteSize before, t.span.stop⟩ = some t.text := by
    rw [hstart]
    exact text?_of_mem_tokensOf ht
  rw [List.append_assoc] at hchars
  obtain ⟨after', hrest, hsize'⟩ := append_of_text? hchars htext
  have hpos := byteSize_cons_pos '$' cs
  rw [hcs] at hrest hsize'
  have hmiddle : ∃ rest, middle = '$' :: rest := by
    cases middle with
    | nil =>
      rw [byteSize] at hsize
      omega
    | cons c rest =>
      simp only [List.cons_append, List.cons.injEq] at hrest
      exact ⟨rest, by rw [hrest.1]⟩
  obtain ⟨rest, rfl⟩ := hmiddle
  rw [Source.text?, textAfterFirst, hslice]
  simp

private theorem gives_variableTokens_first (g : Grammar) : Gives g.source g.variableTokens s fun _ rest =>
    rest.reach = rest.last ∧ ∃ t tokens, s.tokens = t :: tokens ∧ isVariableStart t = true ∧
      t.span.stop ≤ rest.last := by
  -- Before the first turn nothing has been taken, and after it the first token has.
  refine gives_repeating (fun _ s' => s'.tokens = s.tokens ∨ ∃ t tokens, s.tokens = t :: tokens ∧
    isVariableStart t = true ∧ t.span.stop ≤ s'.last) (.inl rfl) fun _ s₁ _ hinv => ?_
  refine (gives_expect _).bind fun t s₂ ht l₂ => ?_
  have hfirst : ∃ t tokens, s.tokens = t :: tokens ∧ isVariableStart t = true ∧ t.span.stop ≤ s₂.last := by
    rcases hinv with hsame | ⟨u, tokens, htokens, hu, hle⟩
    · exact ⟨t, s₂.tokens, hsame ▸ ht.1.tokens, ht.2, by grind⟩
    · exact ⟨u, tokens, htokens, hu, by grind⟩
  refine gives_ite (fun _ => gives_pure fun _ => .inr hfirst) fun _ => gives_ite (fun _ => ?_) fun _ => ?_
  · refine Gives.after fun _ s₃ l₃ => (gives_symbol "\x7d").bind fun closer s₄ hcloser l₄ => ?_
    refine gives_pure fun _ => ⟨by grind, ?_⟩
    obtain ⟨u, tokens, htokens, hu, hle⟩ := hfirst
    exact ⟨u, tokens, htokens, hu, by grind⟩
  · exact gives_pure fun _ => ⟨by grind, hfirst⟩

/-- A variable in the tree, which ends with the last token taken. -/
structure IsVariable (source : Source) (n : Node) (rest : Stream) : Prop where
  grown : Grown source .expression n
  kind : ∃ name, n.kind = .variable name
  stop : n.span.stop = rest.last
  reach : rest.reach = rest.last

theorem gives_isVariable (g : Grammar) : Gives g.source g.anyVariable s (IsVariable g.source) := by
  refine Gives.of_reads fun hs => gives_startOfNext.bind fun start s₁ hstart l₁ => ?_
  obtain ⟨hopens, -, hrests, hahead⟩ := hstart
  refine (gives_variableTokens_first g).bind fun _ s₂ hfirst l₂ => ?_
  refine gives_reach.bind fun place s₃ hplace _ => gives_pure fun hs₃ => ?_
  obtain ⟨rfl, rfl⟩ := hplace
  obtain ⟨hreach, t, tokens, htokens, hvariable, hle⟩ := hfirst
  rw [hrests.tokens] at htokens
  have hsame : start = t.span.start := by
    have hle₁ := hopens.ahead.le (hrests.tokens.trans htokens)
    have hle₂ := hahead _ (hs.ahead htokens)
    omega
  have ht : t ∈ tokensOf g.source := hs.mem_tokensOf (by simp [htokens])
  have htext := text?_variable ht hvariable (by omega) hs₃.isBoundary_reach
  rw [← hsame] at htext
  exact ⟨.of_children rfl trivial .nil htext trivial, ⟨_, rfl⟩, hreach, hreach⟩

private theorem makes_nameOperand (level : Level) : Makes source (nameOperand level)
    (Grown source .expression) := by
  refine fun s => Gives.of_reads fun hs => gives_next.bind fun t s₁ ht _ => ?_
  have htext := text?_of_mem_tokensOf (hs.mem_tokensOf (by simp [ht.tokens] : t ∈ s.tokens))
  refine Gives.after fun _ _ _ => gives_ite (fun _ => gives_pure fun _ => ?_) fun _ => gives_pure fun _ => ?_
  · exact .of_children rfl trivial .nil htext trivial
  · exact grown_operation rfl allGrown_nil

/-! ### Simple operands -/

private theorem makes_strayOperand (level : Level) : Makes source (strayOperand level)
    (Grown source .expression ·.node) := by
  refine Makes.after fun token => makes_ite (fun _ => ?_) fun _ => ?_
  · exact Makes.after fun _ => makes_pure (grown_operation rfl allGrown_nil)
  · exact Makes.after fun _ => makes_pure (grown_operation rfl allGrown_nil)

private theorem makes_leaf {form : PlainExpression} (hform : form.stretches = [(.expression, .many)]) :
    Makes source (leaf (.expression form)) (Grown source .expression) :=
  Makes.after fun _ => makes_pure (grown_operation hform allGrown_nil)

private theorem makes_keywordExpression (hg : g.Produces) {form : PlainExpression}
    (hform : form.stretches = [(.expression, .many)]) (level : Level) :
    Makes g.source (g.keywordExpression form level) (Grown g.source .expression) :=
  Makes.after fun _ => (hg.expression level).bind fun _ hvalue =>
    makes_operation hform (allGrown_singleton hvalue)

private theorem makes_parenthesizedConstruct (hg : g.Produces) {form : PlainExpression}
    (hform : form.stretches = [(.expression, .many)]) :
    Makes g.source (g.parenthesizedConstruct form) (Grown g.source .expression) :=
  Makes.after fun _ => Makes.after fun _ => (hg.expression .lowest).bind fun _ hvalue =>
    Makes.after fun _ => makes_operation hform (allGrown_singleton hvalue)

private theorem makes_parenthesized (hg : g.Produces) : Makes g.source g.parenthesized
    (Grown g.source .expression) :=
  Makes.after fun _ => (hg.expression .lowest).bind fun _ hvalue =>
    Makes.after fun _ => makes_operation rfl (allGrown_singleton hvalue)

private theorem makes_issetExpression (hg : g.Produces) : Makes g.source g.issetExpression
    (Grown g.source .expression) :=
  Makes.after fun _ => Makes.after fun _ => (makes_bracketed ")" (hg.expression .lowest)).bind fun _ hvalues =>
    makes_operation rfl hvalues

private theorem makes_exitExpression (hg : g.Produces) : Makes g.source g.exitExpression
    (Grown g.source .expression) :=
  Makes.after fun _ => (makes_optionalArguments hg).bind fun _ harguments =>
    makes_close rfl (.last harguments trivial)

/-! ### Arrays -/

private theorem makes_arrayElement (hg : g.Produces) :
    Makes g.source g.arrayElement (AllGrown g.source .expression) := by
  refine Makes.after fun _ => makes_ite (fun _ => makes_pure allGrown_nil) fun _ => ?_
  refine Makes.after fun _ => makes_ite (fun _ => ?_) fun _ => ?_
  · exact (hg.expression .lowest).bind fun _ hvalue => makes_pure (allGrown_singleton hvalue)
  refine (hg.expression .lowest).bind fun value hvalue => Makes.after fun _ => ?_
  refine makes_ite (fun _ => ?_) fun _ => ?_
  · exact (hg.expression .lowest).bind fun _ hsecond => makes_pure (allGrown_pair hvalue hsecond)
  · exact makes_pure (allGrown_singleton hvalue)

private theorem makes_elements (hg : g.Produces) (closer : String) :
    Makes g.source (bracketed closer g.arrayElement)
      fun elements => AllGrown g.source .expression elements.flatten := by
  refine (makes_bracketed closer (makes_arrayElement hg)).imp fun elements helements n hn => ?_
  obtain ⟨element, helement, hmem⟩ := List.mem_flatten.1 hn
  exact helements element helement n hmem

private theorem makes_bracketArray (hg : g.Produces) : Makes g.source g.bracketArray
    (Grown g.source .expression) :=
  Makes.after fun _ => (makes_elements hg "]").bind fun _ helements => makes_operation rfl helements

private theorem makes_wordArray (hg : g.Produces) {form : PlainExpression}
    (hform : form.stretches = [(.expression, .many)]) :
    Makes g.source (g.wordArray form) (Grown g.source .expression) :=
  Makes.after fun _ => Makes.after fun _ => (makes_elements hg ")").bind fun _ helements =>
    makes_operation hform helements

/-! ### Match and yield -/

private theorem makes_armConditions (hg : g.Produces) :
    Makes g.source g.armConditions (AllGrown g.source .expression) :=
  Makes.after fun _ => makes_ite (fun _ => makes_pure allGrown_nil) fun _ =>
    makes_commaSeparated _ (hg.expression .lowest)

private theorem makes_matchArm (hg : g.Produces) : Makes g.source g.matchArm (Grown g.source .matchArm) := by
  refine Makes.after fun _ => (makes_armConditions hg).bind fun conditions hconditions => ?_
  refine Makes.after fun _ => (hg.expression .lowest).bind fun result hresult => ?_
  refine makes_close rfl (.last ?_ ?_)
  · exact List.forall_mem_append.2 ⟨hconditions, allGrown_singleton hresult⟩
  · simp [Count.Allows]

private theorem makes_matchExpression (hg : g.Produces) : Makes g.source g.matchExpression
    (Grown g.source .expression) := by
  refine Makes.after fun _ => Makes.after fun _ => (hg.expression .lowest).bind fun subject hsubject => ?_
  refine Makes.after fun _ => Makes.after fun _ => ?_
  refine (makes_bracketed "\x7d" (makes_matchArm hg)).bind fun arms harms => ?_
  exact makes_close rfl (.one hsubject (.last harms trivial))

private theorem makes_yieldOperands (hg : g.Produces) :
    Makes g.source g.yieldOperands (AllGrown g.source .expression) := by
  refine Makes.after fun _ => makes_ite (fun _ => ?_) fun _ => ?_
  · exact (hg.expression .yieldFrom).bind fun _ hvalue => makes_pure (allGrown_singleton hvalue)
  refine Makes.after fun _ => makes_ite (fun _ => makes_pure allGrown_nil) fun _ => ?_
  refine (hg.expression .yieldValue).bind fun value hvalue => Makes.after fun _ => ?_
  refine makes_ite (fun _ => ?_) fun _ => ?_
  · exact (hg.expression .yieldValue).bind fun _ hsecond => makes_pure (allGrown_pair hvalue hsecond)
  · exact makes_pure (allGrown_singleton hvalue)

private theorem makes_yieldExpression (hg : g.Produces) : Makes g.source g.yieldExpression
    (Grown g.source .expression) :=
  Makes.after fun _ => (makes_yieldOperands hg).bind fun _ hchildren => makes_operation rfl hchildren

private theorem makes_prefixOperation (hg : g.Produces) (level : Level) :
    Makes g.source (g.prefixOperation level) (Grown g.source .expression) :=
  Makes.after fun _ => (hg.expression level).bind fun _ hoperand =>
    makes_operation rfl (allGrown_singleton hoperand)

/-! ### Strings -/

private theorem text?_of_isConstantName {place : Span}
    (h : isConstantName ((source.text? place).getD "") = true) :
    source.text? place = some ((source.text? place).getD "") := by
  cases htext : source.text? place with
  | some text => rfl
  | none => simp [htext, isConstantName] at h

private theorem grown_unquotedKey {n : Node} (h : Grown source .expression n) :
    Grown source .expression (unquotedKey source n) := by
  unfold unquotedKey
  split
  · rename_i span array place
    dsimp only
    split
    · rename_i hname
      have harray : Grown source .expression array := h.operands rfl rfl array (by simp)
      have hkey : Grown source .expression
          ⟨.identifier ((source.text? place).getD ""), place, []⟩ :=
        .of_children rfl trivial .nil (text?_of_isConstantName hname) trivial
      exact (grown_operation rfl (allGrown_pair harray hkey))
    · exact h
  · exact h

private theorem makes_asStringPart {α : Type} {p : TokenParser α} {post : α → Prop} (h : Makes source p post) :
    Makes source (asStringPart p) post :=
  fun _ => gives_asStringPart (h _)

private theorem makes_stringParts (hg : g.Produces) (closes : Token → Bool) :
    Makes g.source (g.stringParts closes) (AllGrown g.source .expression) := by
  refine makes_repeating (AllGrown g.source .expression) allGrown_nil fun nodes hinv => ?_
  refine Makes.after fun token => makes_ite (fun _ => ?_) fun _ => makes_ite (fun _ => ?_) fun _ =>
    makes_ite (fun _ => ?_) fun _ => ?_
  · exact Makes.after fun _ => makes_pure (forall_mem_reverse hinv)
  · exact Makes.after fun _ => makes_pure hinv
  · refine Makes.after fun _ => (hg.expression .lowest).bind fun value hvalue => Makes.after fun _ => ?_
    exact makes_pure (List.forall_mem_cons.2 ⟨hvalue, hinv⟩)
  · refine (makes_asStringPart (hg.expression .lowest)).bind fun value hvalue => makes_pure ?_
    exact List.forall_mem_cons.2 ⟨grown_unquotedKey hvalue, hinv⟩

private theorem makes_compositeString (hg : g.Produces) {form : PlainExpression} (closes : Token → Bool)
    (hform : form.stretches = [(.expression, .many)]) :
    Makes g.source (g.compositeString form closes) (Grown g.source .expression) :=
  Makes.after fun _ => (makes_stringParts hg closes).bind fun _ hparts => makes_operation hform hparts

/-! ### Calls -/

/-- Of the tokens up to one that is left later on, the first ends no later than that one. -/
theorem exists_first {t : Token} (hs : s.Reads source) (hleads : s.Leads s') (ht : t ∈ s'.tokens) :
    ∃ u tokens, s.tokens = u :: tokens ∧ u.span.stop ≤ t.span.stop := by
  have hmem : t ∈ s.tokens := hleads.tokens_suffix.subset ht
  obtain ⟨u, tokens, htokens⟩ := List.exists_cons_of_ne_nil (List.ne_nil_of_mem hmem)
  refine ⟨u, tokens, htokens, ?_⟩
  rw [htokens, List.mem_cons] at hmem
  rcases hmem with rfl | hmem
  · exact Nat.le_refl _
  · obtain ⟨taken, hsplit, -⟩ := hs.split
    have hsorted := pairwise_tokensOf source
    rw [hsplit, htokens, List.pairwise_append, List.pairwise_cons] at hsorted
    have hle := hsorted.2.1.1 t hmem
    have hspan := start_le_stop_of_mem_tokensOf (hs.mem_tokensOf (hleads.tokens_suffix.subset ht))
    omega

/-- What is read goes beyond the first token that is left. -/
abbrev GoesBeyond (s rest : Stream) : Prop := ∃ t tokens, s.tokens = t :: tokens ∧ t.span.stop ≤ rest.reach

private theorem gives_bracketed_goesBeyond {α : Type} (closer : String) (element : TokenParser α) :
    Gives source (bracketed closer element) s fun _ rest => GoesBeyond s rest := by
  refine Gives.of_reads fun hs => gives_repeating (fun _ _ => True) trivial fun elements s₁ l₁ _ => ?_
  have taken : ∀ {s₂ s₃ t}, s₁.Later s₂ → s₂.Takes source t s₃ → GoesBeyond s s₃ := by
    intro s₂ s₃ t l₂ ht
    have hmem : t ∈ s₂.tokens := by simp [ht.tokens]
    obtain ⟨u, tokens, htokens, hle⟩ := exists_first hs (l₁.trans l₂).leads hmem
    exact ⟨u, tokens, htokens, by grind⟩
  have ends : ∀ s₂ (elements : List α), s₁.Later s₂ → Gives source (afterElement closer elements) s₂
      (Turn.Keeps (fun _ _ => True) fun _ rest => GoesBeyond s rest) := by
    intro s₂ elements l₂
    refine gives_peek.bind fun token s₃ hsees l₃ => gives_ite (fun _ => ?_) fun _ => ?_
    · exact Gives.after fun _ _ _ => gives_pure fun _ => trivial
    refine gives_ite (fun _ => ?_) fun _ => ?_
    · exact gives_next.bind fun t s₄ ht _ => gives_pure fun _ => taken (l₂.trans l₃) ht
    · obtain ⟨items, hitems⟩ := hsees.front
      refine (gives_reachOver hitems).bind fun _ s₄ hover l₄ => gives_pure fun _ => ?_
      obtain ⟨u, tokens, htokens, hle⟩ := exists_first hs (l₁.trans (l₂.trans l₃)).leads
        (by simp [Stream.tokens_of_items hitems] : token ∈ s₃.tokens)
      exact ⟨u, tokens, htokens, hover.reach ▸ hle⟩
  refine (gives_skipSymbol closer).bind fun found s₂ hskip l₂ => gives_ite (fun hfound => ?_) fun _ => ?_
  · refine gives_pure fun _ => ?_
    rcases hskip with ⟨-, t, ht, -⟩ | ⟨hfalse, -⟩
    · exact taken ⟨.refl s₁, Nat.le_refl _, Nat.le_refl _, l₁.last_le_reach⟩ ht
    · exact absurd hfound (by simp [hfalse])
  · refine Gives.after fun value s₃ l₃ => ?_
    cases value with
    | none => exact ends s₃ _ (l₂.trans l₃)
    | some value => exact ends s₃ _ (l₂.trans l₃)

private theorem gives_enclosed_goesBeyond {α : Type} (closer : String) (element : TokenParser α) :
    Gives source (enclosed closer element) s fun _ rest => GoesBeyond s rest := by
  refine Gives.of_reads fun hs => Gives.after fun _ s₁ l₁ => ?_
  refine (gives_symbol closer).bind fun t s₂ ht l₂ => gives_pure fun _ => ?_
  obtain ⟨u, tokens, htokens, hle⟩ := exists_first hs l₁.leads (by simp [ht.1.tokens] : t ∈ s₁.tokens)
  exact ⟨u, tokens, htokens, by grind⟩

/-- An argument list opens with the next token and reaches over the one behind it. -/
def OpensArguments (s rest : Stream) : Prop :=
  ∃ opener next tokens, s.tokens = opener :: next :: tokens ∧ opener.kind = .symbol "(" ∧
    next.span.stop ≤ rest.reach

private theorem opensArguments_of_takes {opener : Token} {s'' : Stream} (ht : s.Takes source opener s')
    (hkind : opener.kind = .symbol "(") (h : GoesBeyond s' s'') : OpensArguments s s'' := by
  obtain ⟨next, tokens, htokens, hle⟩ := h
  exact ⟨opener, next, tokens, by rw [ht.tokens, htokens], hkind, hle⟩

theorem gives_argumentList_opensArguments (g : Grammar) (withHoles : Bool) :
    Gives g.source (g.argumentList withHoles) s fun _ rest => OpensArguments s rest :=
  (gives_symbol "(").bind fun _ _ hopener _ => (gives_bracketed_goesBeyond _ _).imp fun _ _ _ _ h =>
    opensArguments_of_takes hopener.1 hopener.2 h

/-- A call of an expression that ends where the stream stands, or lacks its end. -/
theorem grown_functionCall {callee : Node} {arguments : List Node} {rest : Stream} (hs : s.Reads source)
    (hcallee : Grown source .expression callee) (hstart : callee.span.start ≤ s.last)
    (hstop : callee.span.stop = s.reach) (hends : EndsBy source callee s.last)
    (harguments : AllGrown source .argument arguments) (hopens : OpensArguments s rest) :
    Grown source .expression
      ⟨.functionCall callee arguments, ⟨callee.span.start, rest.reach⟩, []⟩ := by
  refine .of_children rfl ⟨hcallee, harguments⟩ .nil trivial ?_
  obtain ⟨taken, hsplit, hlast⟩ := hs.split
  obtain ⟨opener, next, tokens, htokens, hkind, hle⟩ := hopens
  refine ⟨taken, opener, next, ⟨⟨tokens, by rw [hsplit, htokens]⟩, hkind, hlast ▸ hstart, hle⟩, ?_⟩
  rcases hs.reach with hreach | ⟨t, tokens', ht, hreach⟩
  · exact .inl ((hstop.trans hreach).trans hlast)
  rcases hends with hle | hover
  · have hle' := hs.last_le_reach
    exact .inl (by omega)
  · rw [htokens] at ht
    obtain ⟨rfl, -⟩ := List.cons.inj ht
    exact .inr ⟨hstop.trans hreach, hover⟩

private theorem grown_onlyValue? {arguments : List Argument} {value : Node}
    (h : ∀ a ∈ arguments, Grown source .argument a.node) (hvalue : onlyValue? arguments = some value) :
    Grown source .expression value := by
  obtain ⟨argument, rfl, hchild⟩ := mem_children_of_onlyValue? hvalue
  have hargument := h argument (by simp)
  have hkind : argument.node.kind = .glue .argument := Kind.eq_glue_of_part hargument.part
  have hrest := hargument.rest
  rw [Node.children, hkind] at hchild
  rw [hkind] at hrest
  obtain ⟨stretch, hstretch, hgrown⟩ := hrest.exists_stretch hchild
  obtain rfl := List.mem_singleton.1 hstretch
  exact hgrown

private theorem makes_cloneCall (hg : g.Produces) : Makes g.source g.cloneCall
    (Grown g.source .expression) := by
  refine fun s => Gives.of_reads fun hs => gives_next.bind fun word s₁ hword l₁ => Gives.of_reads fun hs₁ => ?_
  refine (gives_symbol "(").bind fun opener s₂ hopener l₂ => ?_
  have hlist := (makes_enclosed ")" (makes_argument hg true) s₂).and (gives_enclosed_goesBeyond ")" _)
  refine hlist.bind fun arguments s₃ harguments l₃ => ?_
  split
  · rename_i value hvalue
    have hgrown := grown_onlyValue? harguments.1 hvalue
    refine (makes_operation rfl (allGrown_singleton hgrown) s₃).bind fun operand s₄ hoperand _ => ?_
    exact makes_operation rfl (allGrown_singleton hoperand) s₄
  · refine gives_close fun _ => ?_
    have htext := text?_of_mem_tokensOf (hs.mem_tokensOf (by simp [hword.tokens] : word ∈ s.tokens))
    have hcallee : Grown g.source .expression ⟨.identifier word.text, word.span, []⟩ :=
      .of_children rfl trivial .nil htext trivial
    exact grown_functionCall hs₁ hcallee (by grind) hword.reach.symm (.inl (by grind))
      (allGrown_arguments harguments.1) (opensArguments_of_takes hopener.1 hopener.2 harguments.2)

private theorem makes_instantiation (hg : g.Produces) : Makes g.source g.instantiation
    (Grown g.source .expression) := by
  refine Makes.after fun _ => (hg.expression .instantiation).bind fun owner howner => ?_
  refine (makes_optionalArguments hg).bind fun arguments harguments => ?_
  exact makes_close rfl (.one howner (.last harguments trivial))

/-! ### Operands -/

private theorem makes_plain {p : TokenParser Node} (h : Makes source p (Grown source .expression)) :
    Makes source (plain p) (Grown source .expression ·.node) :=
  h.bind fun _ hgrown => makes_pure hgrown

private theorem makes_plainName (level : Level) :
    Makes source (plain (nameOperand level)) (Grown source .expression ·.node) :=
  makes_plain (makes_nameOperand level)

private theorem makes_strayKeyword (level : Level) :
    Makes source (strayKeyword level) (Grown source .expression ·.node) :=
  Makes.after fun _ => makes_ite (fun _ => makes_plainName level) fun _ => makes_strayOperand level

section Words

variable {level : Level}

private theorem makes_literalWord (called : Bool) :
    Makes source (literalWord level called) (Grown source .expression ·.node) :=
  Makes.after fun _ => makes_ite (fun _ => makes_plainName level) fun _ => makes_plain (makes_leaf rfl)

private theorem makes_classWord (called : Bool) {form : PlainExpression}
    (hform : form.stretches = [(.expression, .many)]) :
    Makes source (classWord level called form) (Grown source .expression ·.node) :=
  makes_ite (fun _ => makes_plainName level) fun _ => makes_plain (makes_leaf hform)

private theorem makes_functionWord (hg : g.Produces) :
    Makes g.source (g.functionWord level) (Grown g.source .expression ·.node) :=
  Makes.after fun _ => makes_ite (fun _ => makes_plainName level) fun _ =>
    makes_plain (makes_functionExpression hg)

end Words

private theorem makes_keywordOperand (hg : g.Produces) (level : Level) (word : String) :
    Makes g.source (g.keywordOperand level word) (Grown g.source .expression ·.node) := by
  refine Makes.after fun called => ?_
  have name : Makes g.source (plain (nameOperand level)) (Grown g.source .expression ·.node) :=
    makes_plainName level
  -- One case for each word, in the order of the grammar.
  split
  · exact makes_literalWord called
  · exact makes_literalWord called
  · exact makes_literalWord called
  · exact makes_classWord called rfl
  · exact makes_classWord called rfl
  · refine Makes.after fun _ => makes_ite (fun _ => ?_) fun _ => ?_
    · exact makes_plain (makes_functionExpression hg)
    · exact makes_plain (makes_leaf rfl)
  · exact makes_functionWord hg
  · exact makes_functionWord hg
  · refine Makes.after fun _ => makes_ite (fun _ => ?_) fun _ => ?_
    · exact makes_plain (makes_anonymousClass hg)
    · exact makes_plain (makes_instantiation hg)
  · refine makes_ite (fun _ => ?_) fun _ => ?_
    · exact makes_plain (makes_cloneCall hg)
    · exact makes_plain (makes_keywordExpression hg rfl .clone)
  · exact makes_plain (makes_keywordExpression hg rfl .print)
  · exact makes_plain (makes_keywordExpression hg rfl .lowest)
  · exact makes_plain (makes_keywordExpression hg rfl .lowest)
  · exact makes_plain (makes_keywordExpression hg rfl .lowest)
  · exact makes_plain (makes_keywordExpression hg rfl .lowest)
  · exact makes_plain (makes_keywordExpression hg rfl .lowest)
  · exact makes_plain (makes_yieldExpression hg)
  · exact makes_plain (makes_issetExpression hg)
  · exact makes_plain (makes_parenthesizedConstruct hg rfl)
  · exact makes_plain (makes_parenthesizedConstruct hg rfl)
  · exact makes_plain (makes_exitExpression hg)
  · exact makes_plain (makes_exitExpression hg)
  · exact makes_ite (fun _ => makes_plain (makes_matchExpression hg)) fun _ => name
  · exact makes_ite (fun _ => makes_plain (makes_wordArray hg rfl)) fun _ => name
  · exact makes_ite (fun _ => makes_plain (makes_wordArray hg rfl)) fun _ => makes_strayKeyword level
  · exact makes_fail
  · refine makes_ite (fun _ => makes_plain (makes_leaf rfl)) fun _ => ?_
    exact makes_ite (fun _ => name) fun _ => makes_strayKeyword level

theorem makes_operand (hg : g.Produces) (level : Level) :
    Makes g.source (g.operand level) (Grown g.source .expression ·.node) := by
  refine Makes.after fun token => Makes.after fun _ => ?_
  have name : Makes g.source (plain (nameOperand level)) (Grown g.source .expression ·.node) :=
    makes_plainName level
  split
  · exact makes_plain (makes_prefixOperation hg _)
  refine makes_ite (fun _ => ?_) fun _ => ?_
  · exact makes_plain fun _ => (gives_isVariable g).imp fun _ _ _ _ h => h.grown
  split
  · exact name
  · exact name
  · exact name
  · exact makes_plain (makes_leaf rfl)
  · exact makes_plain (makes_leaf rfl)
  · exact Makes.after fun _ => makes_fail
  · exact makes_plain (makes_compositeString hg _ rfl)
  · exact makes_plain (makes_compositeString hg _ rfl)
  · exact makes_plain (makes_compositeString hg _ rfl)
  · exact makes_plain (makes_bracketArray hg)
  · exact makes_plain (makes_parenthesized hg)
  · exact makes_plain (makes_functionExpression hg)
  · exact makes_keywordOperand hg level _
  · exact makes_strayOperand level

end CaretContext.Php.Grammar
