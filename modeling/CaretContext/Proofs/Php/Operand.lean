import CaretContext.Proofs.Php.FunctionLike

/-!
# Rows of operands
-/

namespace CaretContext.Php.Grammar

open TokenParser

variable {g : Grammar} {source : Source} {s : Stream}

/-! ### Simple operands -/

private theorem gives_strayOperand (level : Level) : Gives source (strayOperand level) s fun operand rest =>
    Phrase source s operand.node rest ∨ Missing level s operand.node rest := by
  refine gives_peek.bind fun t s₁ hsees l₁ => gives_ite (fun hleft => ?_) fun _ => ?_
  · refine gives_lastEnd.bind fun place s₂ hplace _ => gives_pure fun _ => .inr ?_
    obtain ⟨rfl, rfl⟩ := hplace
    obtain ⟨items, hitems⟩ := hsees.front
    exact ⟨by rw [hsees.rests.last], hsees.rests, t, items, hitems, hleft⟩
  · refine gives_next.bind fun u s₂ htakes _ => gives_pure fun hs => .inl ?_
    obtain rfl := eq_of_sees hsees htakes
    exact .of_token rfl (htakes.of_rests hsees.rests) hs trivial

private theorem gives_leaf {kind : Kind Node} (hkind : kind.nodes = []) (hbacked : IsBacked source kind) :
    Gives source (leaf kind) s (Phrase source s) :=
  gives_next.bind fun _ _ htakes _ => gives_pure fun hs => .of_token hkind htakes hs hbacked

private theorem gives_isReference (level : Level) :
    Gives source (anyOf [pure (level = .instantiation || level = .instanceOf), atSymbol "(",
      atSymbol "::", inVariableName]) s fun _ rest => s.Rests rest := by
  refine gives_anyOf _ fun test htest s' => ?_
  simp only [List.mem_cons, List.not_mem_nil, or_false] at htest
  rcases htest with rfl | rfl | rfl | rfl
  · exact gives_pure fun _ => .refl s'
  · exact gives_nextIs _ 0
  · exact gives_nextIs _ 0
  · exact gives_inVariableName

private theorem gives_nameOperand (level : Level) : Gives source (nameOperand level) s (Phrase source s) := by
  refine gives_next.bind fun t s₁ htakes _ => (gives_isReference level).bind fun _ s₂ hrests _ => ?_
  have htakes' := htakes.rests hrests
  refine gives_ite (fun _ => gives_pure fun hs => ?_) fun _ => gives_pure fun hs => ?_
  · exact .of_token rfl htakes' hs trivial
  · exact .of_token rfl htakes' hs trivial

private theorem gives_keywordExpression (hg : g.ReadsRows) (form : PlainExpression)
    (hform : looseness (.expression form) = .strict) (level : Level) :
    Gives g.source (g.keywordExpression form level) s (Phrase g.source s) := by
  refine gives_next.bind fun word s₁ hword l₁ => ?_
  refine (hg.value level).bind fun value s₂ hvalue l₂ => gives_close fun hs => ?_
  exact .of_gathered hword hvalue.gathered rfl hform hs trivial

private theorem gives_parenthesizedConstruct (hg : g.ReadsRows) (form : PlainExpression)
    (hform : looseness (.expression form) = .strict) :
    Gives g.source (g.parenthesizedConstruct form) s (Phrase g.source s) := by
  refine gives_next.bind fun word s₁ hword l₁ => Gives.after fun _ s₂ l₂ => ?_
  refine (hg.collects_expression .lowest s₂).bind fun value s₃ hrow l₃ => ?_
  refine (gives_symbol ")").bind fun closer s₄ hcloser l₄ => gives_close fun hs => ?_
  exact .of_word hword (hform ▸ (hrow.lower (by grind)).extend l₄) hs trivial (.inl (by grind))

private theorem gives_parenthesized (hg : g.ReadsRows) :
    Gives g.source g.parenthesized s (Phrase g.source s) := by
  refine (gives_symbol "(").bind fun opener s₁ hopener l₁ => ?_
  refine (hg.collects_expression .lowest s₁).bind fun value s₂ hrow l₂ => ?_
  refine (gives_symbol ")").bind fun closer s₃ hcloser l₃ => gives_close fun hs => ?_
  exact .of_word hopener.1 (hrow.extend l₃) hs trivial (.inl (by grind))

private theorem gives_issetExpression (hg : g.ReadsRows) :
    Gives g.source g.issetExpression s (Phrase g.source s) := by
  refine gives_next.bind fun word s₁ hword l₁ => (gives_symbol "(").bind fun opener s₂ hopener l₂ => ?_
  have hlist := gives_bracketed ")" ([·]) hopener.1 hopener.2 (by decide) fun s =>
    (hg.value .lowest).imp fun _ _ _ _ hvalue => hvalue.gathered.filled
  refine hlist.bind fun values s₃ hvalues l₃ => gives_close fun hs => ?_
  rw [List.flatMap_singleton'] at hvalues
  exact .of_listing hword hvalues (by grind) (by grind) rfl rfl (by decide) hs trivial

private theorem gives_exitExpression (hg : g.ReadsRows) :
    Gives g.source g.exitExpression s (Phrase g.source s) := by
  refine gives_next.bind fun word s₁ hword l₁ => ?_
  refine (gives_optionalArguments hg).bind fun arguments s₂ harguments l₂ => gives_close fun hs => ?_
  have hnone : Row g.source .strict s₁.last [] s₁.last s₁.reach := .nil (Nat.le_refl _) l₁.last_le_reach
  obtain ⟨hrow, hends⟩ := row_optionalArguments (.expression .exit) word.span.start harguments hnone
    (.inl (by grind)) (by decide) (by grind) rfl
  exact .of_word hword hrow hs trivial hends

/-! ### Arrays -/

private theorem gathers_arrayElement (hg : g.ReadsRows) : Gathers g.source id g.arrayElement := by
  intro s
  refine (gives_nextIs _ 0).bind fun skipped s₁ hrests l₁ => gives_ite (fun _ => ?_) fun _ => ?_
  · exact gives_pure fun hs => .nil hrests hs
  refine (gives_skipSymbol "...").bind fun spread s₂ hskip l₂ => ?_
  obtain ⟨rfl, points, hpoints, -⟩ | ⟨rfl, hrests'⟩ := hskip
  · refine (hg.value .lowest).bind fun value s₃ hvalue l₃ => gives_pure fun _ => ?_
    exact ((hvalue.of_takes hpoints).of_rests hrests).gathered
  refine (hg.value .lowest).bind fun value s₃ hvalue l₃ => ?_
  have hfirst := (hvalue.of_rests (hrests.trans hrests')).gathered
  refine (gives_skipSymbol "=>").bind fun found s₄ hskip' l₄ => ?_
  obtain ⟨rfl, arrow, harrow, -⟩ | ⟨rfl, hrests''⟩ := hskip'
  · refine (hg.value .lowest).bind fun second s₅ hsecond l₅ => gives_pure fun _ => ?_
    exact hfirst.push harrow hsecond
  · exact gives_pure fun _ => hfirst.rests hrests''

private theorem gives_bracketArray (hg : g.ReadsRows) :
    Gives g.source g.bracketArray s (Phrase g.source s) := by
  refine (gives_symbol "[").bind fun opener s₁ hopener l₁ => ?_
  have hlist := gives_bracketed "]" id hopener.1 hopener.2 (by decide) fun s =>
    (gathers_arrayElement hg s).imp fun _ _ _ _ h => h.filled
  refine hlist.bind fun elements s₂ helements l₂ => gives_close fun hs => ?_
  rw [List.flatMap_id] at helements
  exact .of_listing hopener.1 helements (Nat.le_refl _) (by grind) rfl rfl (by decide) hs trivial

private theorem gives_wordArray (hg : g.ReadsRows) (form : PlainExpression)
    (hform : looseness (.expression form) = .strict) (hcloser : ")" ∈ closers (.expression form)) :
    Gives g.source (g.wordArray form) s (Phrase g.source s) := by
  refine gives_next.bind fun word s₁ hword l₁ => (gives_symbol "(").bind fun opener s₂ hopener l₂ => ?_
  have hlist := gives_bracketed ")" id hopener.1 hopener.2 (by decide) fun s =>
    (gathers_arrayElement hg s).imp fun _ _ _ _ h => h.filled
  refine hlist.bind fun elements s₃ helements l₃ => gives_close fun hs => ?_
  rw [List.flatMap_id] at helements
  exact .of_listing hword helements (by grind) (by grind) rfl hform hcloser hs trivial

/-! ### Objects -/

private theorem gives_instantiation (hg : g.ReadsRows) :
    Gives g.source g.instantiation s (Phrase g.source s) := by
  refine (gives_keyword "new").bind fun word s₁ hword l₁ => ?_
  refine (hg.value .instantiation).bind fun owner s₂ howner l₂ => ?_
  refine (gives_optionalArguments hg).bind fun arguments s₃ harguments l₃ => gives_close fun hs => ?_
  obtain ⟨hrow, hends⟩ := row_optionalArguments (.expression .instantiation) word.span.start harguments
    howner.row (howner.settles.settled (by grind)) (by decide) (by grind) rfl
  exact .of_word hword.1 hrow hs trivial hends

theorem mem_children_of_onlyValue? {arguments : List Argument} {value : Node}
    (h : onlyValue? arguments = some value) :
    ∃ argument, arguments = [argument] ∧ value ∈ argument.node.children := by
  unfold onlyValue? at h
  split at h
  · rename_i argument
    refine ⟨argument, rfl, ?_⟩
    unfold Argument.value? at h
    rw [Node.children, List.mem_append]
    split at h
    · rename_i hrest
      cases h
      exact .inr (by simp [hrest])
    · rename_i hrest
      cases h
      exact .inr (by simp [hrest])
    · cases h
  · cases h

private theorem gives_cloneCall (hg : g.ReadsRows) : Gives g.source g.cloneCall s (Phrase g.source s) := by
  refine gives_next.bind fun word s₁ hword l₁ => Gives.of_reads fun hs₁ => ?_
  refine (gives_symbol "(").bind fun opener s₂ hopener l₂ => ?_
  have hlist : Collects g.source (fun argument => [Argument.node argument]) (g.argument true) :=
    fun s => (gives_argument hg true ")").imp fun _ _ _ _ h => h.row
  refine (gives_enclosed ")" hlist).bind fun arguments s₃ h l₃ => ?_
  obtain ⟨hrow, hends⟩ := h
  rw [← List.map_eq_flatMap] at hrow
  split
  · rename_i value hvalue
    obtain ⟨argument, rfl, hchild⟩ := mem_children_of_onlyValue? hvalue
    have hargument : Row g.source .strict s₂.last [argument.node] s₃.last s₃.reach := hrow
    have hinner := (hargument.children.single hchild).lower hargument.le_start
    have hoperand : Gives g.source (close (.expression .parenthesized) opener.span.start [value]) s₃
        fun n rest => rest = s₃ ∧ Row g.source .strict s₁.last [n] s₃.last s₃.reach :=
      gives_close fun hs => ⟨rfl, hinner.close hs trivial hopener.1.last_le (by grind)
        hopener.1.isBoundary (.inl hends)⟩
    refine hoperand.bind fun operand s₄ h _ => gives_close fun hs => ?_
    obtain ⟨rfl, hoperandRow⟩ := h
    exact .of_word hword hoperandRow hs trivial (.inl hends)
  · refine gives_close fun hs => ?_
    have hcallee : Phrase g.source s ⟨.identifier word.text, word.span, []⟩ s₁ :=
      .of_token rfl hword hs₁ trivial
    refine hcallee.grow ?_ (l₂.trans l₃) hs trivial (.inl hends)
    rw [List.append_nil]
    exact hcallee.row.from_start.append hrow (by grind)

/-! ### Match -/

private theorem isSymbol_of_isLeftAlone {t : Token} (h : isLeftAlone .lowest t = true) (text : String) :
    t.isSymbol text = false := by
  unfold isLeftAlone at h
  split at h
  · rename_i word hkind
    simp [Token.isSymbol, hkind]
  · simp at h
  · cases h

theorem gives_peek?_of_isLeft {level : Level} (h : IsLeft level s) :
    Gives source peek? s fun found rest =>
      rest = s ∧ ∃ t, found = some t ∧ isLeftAlone level t = true := by
  intro _ found rest hrun
  obtain ⟨t, items, hitems, hleft⟩ := h
  rw [peek?, peekAt?] at hrun
  simp only [hitems, lookBehind] at hrun
  cases hrun
  exact ⟨by rw [← hitems], t, rfl, hleft⟩

private theorem gives_skipSymbol_of_isLeft (h : IsLeft .lowest s) (text : String) :
    Gives source (skipSymbol text) s fun found rest => found = false ∧ rest = s := by
  have htest : Gives source (atSymbol text) s fun found rest => found = false ∧ rest = s := by
    refine (gives_peek?_of_isLeft h).bind fun found rest hfound _ => gives_pure fun _ => ?_
    obtain ⟨rfl, t, rfl, hleft⟩ := hfound
    exact ⟨isSymbol_of_isLeftAlone hleft text, rfl⟩
  refine htest.bind fun found rest hfound _ => gives_ite (fun htrue => ?_) fun _ => ?_
  · exact absurd htrue (by simp [hfound.1])
  · exact gives_pure fun _ => ⟨rfl, hfound.2⟩

private theorem gives_symbol_of_isLeft (h : IsLeft .lowest s) (text : String) :
    Gives source (symbol text) s fun _ _ => False := by
  have hpeek : Gives source peek s fun t _ => t.isSymbol text = false := by
    refine (gives_peek?_of_isLeft h).bind fun found rest hfound _ => ?_
    obtain ⟨rfl, t, rfl, hleft⟩ := hfound
    exact gives_pure fun _ => isSymbol_of_isLeftAlone hleft text
  refine hpeek.bind fun t rest ht _ => gives_ite (fun htrue => ?_) fun _ => gives_fail
  exact absurd htrue (by simp [ht])

/-- The conditions of an arm start with it. Where the first of them is missing, no arrow follows. -/
theorem gives_armConditions (hg : g.ReadsRows) {start : Nat} (hstart : Opens g.source s start) :
    Gives g.source g.armConditions s fun conditions rest =>
      conditions = [] ∨ Row g.source .strict start conditions rest.last rest.reach ∨
        IsLeft .lowest rest := by
  refine Gives.after fun isDefault s₁ l₁ => gives_ite (fun _ => gives_pure fun _ => .inl rfl) fun _ => ?_
  refine gives_repeating (fun elements s' => elements = [] ∨
    Row g.source .strict start elements.reverse s'.last s'.last) (.inl rfl) fun elements s₂ l₂ hinv => ?_
  refine Gives.after fun ended s₃ l₃ => gives_ite (fun _ => gives_pure fun _ => ?_) fun _ => ?_
  · rcases hinv with rfl | hrow
    · exact .inl rfl
    · exact .inr (.inl (hrow.weaken (Nat.le_refl _) l₃.last_le (by grind) l₃.last_le_reach))
  refine Gives.of_reads fun hs₃ => (hg.expression .lowest s₃).bind fun n s₄ hn l₄ => ?_
  -- Unless the first condition is missing, all that has been read starts behind the arm's start.
  have hcases : Row g.source .strict start (elements.reverse ++ [n]) s₄.last s₄.reach ∨
      IsLeft .lowest s₄ := by
    rcases hinv with rfl | hrow
    · rcases hn with hphrase | hmissing
      · have hle := hphrase.ahead start ((hstart.leads (l₁.trans (l₂.trans l₃)).leads).ahead)
        exact .inl (hphrase.row.from_start.lower hle)
      · exact .inr hmissing.left
    · refine .inl (hrow.append ?_ l₃.last_le)
      rcases hn with hphrase | hmissing
      · exact hphrase.row
      · exact hmissing.row hs₃
  rcases hcases with hrow | hleft
  · refine (gives_skipSymbol ",").bind fun found s₅ hskip l₅ => ?_
    rw [← List.reverse_cons] at hrow
    obtain ⟨rfl, comma, hcomma, -⟩ | ⟨rfl, -⟩ := hskip
    · refine gives_pure fun _ => .inr ?_
      exact hrow.weaken (Nat.le_refl _) l₅.last_le (by grind) (Nat.le_refl _)
    · exact gives_pure fun _ => .inr (.inl (hrow.extend l₅))
  · refine (gives_skipSymbol_of_isLeft hleft ",").bind fun found s₅ hskip l₅ => ?_
    obtain ⟨rfl, rfl⟩ := hskip
    exact gives_ite (fun htrue => absurd htrue (by simp)) fun _ => gives_pure fun _ => .inr (.inr hleft)

private theorem gathers_matchArm (hg : g.ReadsRows) : Gathers g.source ([·]) g.matchArm := by
  intro s
  refine gives_startOfNext.bind fun start s₁ hstart l₁ => ?_
  obtain ⟨hopens, hlast, -, -⟩ := hstart
  refine (gives_armConditions hg hopens).bind fun conditions s₂ hconditions l₂ => ?_
  have harrow : Gives g.source (symbol "=>") s₂ fun _ s₃ =>
      Row g.source .strict start conditions s₃.last s₃.last ∧ s₃.reach ≤ s₃.last := by
    rcases hconditions with rfl | hrow | hleft
    · refine (gives_symbol "=>").imp fun arrow s₃ _ _ htakes => ⟨?_, by grind⟩
      exact .nil ((hopens.leads l₂.leads).le_last htakes.1) (Nat.le_refl _)
    · refine (gives_symbol "=>").imp fun arrow s₃ _ l₃ htakes => ⟨?_, by grind⟩
      exact hrow.weaken (Nat.le_refl _) l₃.last_le (by grind) (Nat.le_refl _)
    · exact (gives_symbol_of_isLeft hleft "=>").imp fun _ _ _ _ => False.elim
  refine harrow.bind fun _ s₃ h l₃ => ?_
  refine (hg.value .lowest).bind fun result s₄ hresult l₄ => gives_close fun hs => ?_
  have hchildren := h.1.append hresult.row (Nat.le_refl _)
  have hends := hresult.settles.settled h.2
  refine ⟨hchildren.close hs trivial hlast (Nat.le_refl _) hopens.isBoundary
    (hchildren.endsBy hends (List.subset_append_right _ _)), ?_, ?_⟩
  · exact .inr (.inr ⟨_, List.mem_singleton.2 rfl, rfl⟩)
  · exact .inr ⟨_, List.mem_singleton.2 rfl, l₄.last_le_reach⟩

private theorem gives_matchExpression (hg : g.ReadsRows) :
    Gives g.source g.matchExpression s (Phrase g.source s) := by
  refine (gives_keyword "match").bind fun word s₁ hword l₁ => Gives.after fun _ s₂ l₂ => ?_
  refine (hg.collects_expression .lowest s₂).bind fun subject s₃ hsubject l₃ => ?_
  refine (gives_symbol ")").bind fun closer s₄ hcloser l₄ => ?_
  refine (gives_symbol "\x7b").bind fun opener s₅ hopener l₅ => ?_
  have hlist := gives_bracketed "\x7d" ([·]) hopener.1 hopener.2 (by decide) fun s =>
    (gathers_matchArm hg s).imp fun _ _ _ _ h => h.filled
  refine hlist.bind fun arms s₆ harms l₆ => gives_close fun hs => ?_
  rw [List.flatMap_singleton'] at harms
  refine .of_word hword.1 ((hsubject.lower (by grind)).append harms.row (by grind)) hs trivial ?_
  refine harms.ends.endsBy ⟨by grind, List.subset_cons_self _ _, fun c hc => ?_⟩ (by simp [closers]) rfl
  rcases List.mem_cons.1 hc with rfl | hc
  · have hstop := hsubject.stops c (by simp)
    exact .inr (by grind)
  · exact .inl hc

/-! ### Yield -/

private theorem gathers_yieldOperands (hg : g.ReadsRows) : Gathers g.source id g.yieldOperands := by
  intro s
  refine (gives_skipKeyword "from").bind fun isFrom s₁ hskip l₁ => ?_
  obtain ⟨rfl, word, hword, -⟩ | ⟨rfl, hrests⟩ := hskip
  · refine (hg.value .yieldFrom).bind fun value s₂ hvalue l₂ => gives_pure fun _ => ?_
    exact (hvalue.of_takes hword).gathered
  refine (gives_nextIs _ 0).bind fun ended s₂ hrests' l₂ => gives_ite (fun _ => ?_) fun _ => ?_
  · exact gives_pure fun hs => .nil (hrests.trans hrests') hs
  refine (hg.value .yieldValue).bind fun value s₃ hvalue l₃ => ?_
  have hfirst := (hvalue.of_rests (hrests.trans hrests')).gathered
  refine (gives_skipSymbol "=>").bind fun found s₄ hskip' l₄ => ?_
  obtain ⟨rfl, arrow, harrow, -⟩ | ⟨rfl, hrests''⟩ := hskip'
  · refine (hg.value .yieldValue).bind fun second s₅ hsecond l₅ => gives_pure fun _ => ?_
    exact hfirst.push harrow hsecond
  · exact gives_pure fun _ => hfirst.rests hrests''

private theorem gives_yieldExpression (hg : g.ReadsRows) :
    Gives g.source g.yieldExpression s (Phrase g.source s) := by
  refine (gives_keyword "yield").bind fun word s₁ hword l₁ => ?_
  refine (gathers_yieldOperands hg s₁).bind fun children s₂ hchildren l₂ => gives_close fun hs => ?_
  exact .of_gathered hword.1 hchildren rfl rfl hs trivial

private theorem gives_prefixOperation (hg : g.ReadsRows) (level : Level) :
    Gives g.source (g.prefixOperation level) s (Phrase g.source s) := by
  refine gives_next.bind fun operator s₁ hoperator l₁ => ?_
  refine (hg.value level).bind fun operand s₂ hoperand l₂ => gives_close fun hs => ?_
  exact .of_gathered hoperator hoperand.gathered rfl rfl hs trivial

/-! ### Strings -/

private theorem not_lacksEnd_other {taken : List Token} {t : Token} {place : Span} :
    ¬ LacksEnd source taken t ⟨.expression .other, place, []⟩ := by
  intro h
  cases h with
  | mark hkind => cases hkind
  | word hkind => cases hkind
  | list hkind => cases hkind
  | within hc => cases hc

/-- An access lacks its end only if the array or the key does, and a plain key does not. -/
theorem EndsBy.rekey {span place : Span} {array : Node} {name : String} {hi : Nat}
    (h : EndsBy source ⟨.expression .arrayAccess, span, [array, ⟨.expression .other, place, []⟩]⟩ hi) :
    EndsBy source ⟨.expression .arrayAccess, span, [array, ⟨.identifier name, place, []⟩]⟩ hi := by
  refine h.imp_right fun ⟨taken, t, rest, htokens, hstop, hlacks⟩ =>
    ⟨taken, t, rest, htokens, hstop, ?_⟩
  cases hlacks with
  | mark hkind => cases hkind
  | word hkind => cases hkind
  | list hkind => cases hkind
  | @within _ c hc hend hinner =>
    have hmem : c = array ∨ c = ⟨.expression .other, place, []⟩ := by
      simpa [Node.children, Kind.nodes] using hc
    rcases hmem with rfl | rfl
    · exact .within (by simp [Node.children]) hend hinner
    · exact absurd hinner not_lacksEnd_other

private theorem phrase_unquotedKey {n : Node} {rest : Stream} (h : Phrase source s n rest) :
    Phrase source s (unquotedKey source n) rest := by
  unfold unquotedKey
  split
  · rename_i span array place
    dsimp only
    generalize (source.text? place).getD "" = name
    split
    · have hself : (⟨.expression .arrayAccess, span, [array, ⟨.expression .other, place, []⟩]⟩ : Node) ∈
          nodesIn [⟨.expression .arrayAccess, span, [array, ⟨.expression .other, place, []⟩]⟩] :=
        mem_nodesIn_of_mem (List.mem_singleton.2 rfl)
      have hlaid := h.row.laidOut _ hself
      have hchildren : Row source .strict span.start ([array] ++ [⟨.expression .other, place, []⟩])
          rest.last rest.reach := h.row.children
      obtain ⟨harray, hkey⟩ := hchildren.split_last
      have hplace : place.stop ≤ rest.last :=
        (hkey.ends _ (mem_nodesIn_of_mem (List.mem_singleton.2 rfl))).resolve_right
          fun ⟨_, _, _, _, _, hlacks⟩ => not_lacksEnd_other hlacks
      have hname : Row source .strict place.start [⟨.identifier name, place, []⟩] rest.last rest.reach :=
        hkey.relabel rfl trivial hplace
      have hrow : Row source .strict s.last
          [⟨.expression .arrayAccess, span, [array, ⟨.identifier name, place, []⟩]⟩] rest.last span.stop :=
        Row.node (harray.append hname (Nat.le_refl _)) trivial h.row.le_start (Nat.le_refl _)
          (Nat.le_of_eq h.stop.symm) hlaid.start hlaid.stop (EndsBy.rekey (h.row.ends _ hself))
      exact ⟨h.stop ▸ hrow, h.stop, h.moved, h.ahead⟩
    · exact h
  · exact h

private theorem gives_asStringPart_expression (hg : g.ReadsRows) :
    Gives g.source (asStringPart (g.expression .lowest)) s fun n rest =>
      Row g.source .strict s.last [unquotedKey g.source n] rest.last rest.reach := by
  refine Gives.of_reads fun hs => gives_asStringPart ?_
  refine (hg.expression .lowest _).imp fun n rest _ _ h => ?_
  rcases h with hphrase | hmissing
  · exact (phrase_unquotedKey hphrase).row
  · have hrow := hmissing.row (hs.step (.mark s s.inVariableName true))
    rw [hmissing.node] at hrow ⊢
    exact hrow

private theorem gives_stringParts (hg : g.ReadsRows) (closes : Token → Bool) :
    Gives g.source (g.stringParts closes) s fun parts rest =>
      Row g.source .parts s.last parts rest.last rest.reach ∧ rest.reach ≤ rest.last := by
  refine Gives.of_reads fun hs => gives_repeating
    (fun nodes s' => Row g.source .parts s.last nodes.reverse s'.last s'.reach)
    (.nil (Nat.le_refl _) hs.last_le_reach) fun nodes s₁ _ hinv => ?_
  refine gives_peek.bind fun token s₂ _ l₂ => gives_ite (fun _ => ?_) fun _ => ?_
  · exact gives_next.bind fun closer s₃ hcloser l₃ =>
      gives_pure fun _ => ⟨hinv.extend (l₂.trans l₃), by grind⟩
  refine gives_ite (fun _ => ?_) fun _ => gives_ite (fun _ => ?_) fun _ => ?_
  · exact Gives.after fun _ s₃ l₃ => gives_pure fun _ => hinv.extend (l₂.trans l₃)
  · refine gives_next.bind fun opener s₃ hopener l₃ => ?_
    refine (hg.collects_expression .lowest s₃).bind fun value s₄ hvalue l₄ => ?_
    refine Gives.after fun _ s₅ l₅ => gives_pure fun _ => ?_
    simp only [Turn.Keeps, List.reverse_cons]
    exact (hinv.append hvalue.loosen (by grind)).extend l₅
  · refine Gives.of_reads fun hs₂ => (gives_asStringPart_expression hg).bind fun value s₃ hvalue l₃ => ?_
    refine gives_pure fun _ => ?_
    simp only [Turn.Keeps, List.reverse_cons]
    refine (hinv.extend l₂).append_of_clear hvalue.loosen (Nat.le_refl _) l₃.reach_le ?_ (.inr ?_)
    · exact clear_of_reads hs₂
    · exact fun _ _ _ _ => trivial

private theorem gives_compositeString (hg : g.ReadsRows) (form : PlainExpression) (closes : Token → Bool)
    (hform : looseness (.expression form) = .parts) :
    Gives g.source (g.compositeString form closes) s (Phrase g.source s) := by
  refine gives_next.bind fun opener s₁ hopener l₁ => ?_
  refine (gives_stringParts hg closes).bind fun parts s₂ hparts l₂ => gives_close fun hs => ?_
  exact .of_word hopener (hform ▸ hparts.1) hs trivial (.inl hparts.2)

/-! ### Operands -/

abbrev OperandPost (source : Source) (level : Level) (s : Stream) (operand : Operand) (rest : Stream) :
    Prop :=
  Phrase source s operand.node rest ∨ Missing level s operand.node rest

private theorem gives_plain {p : TokenParser Node} {level : Level} {s' : Stream} (hlater : s.Later s')
    (h : Gives source p s' (Phrase source s')) :
    Gives source (plain p) s' (OperandPost source level s) :=
  h.bind fun _ _ hphrase _ => gives_pure fun _ => .inl (hphrase.before hlater)

private theorem OperandPost.of_rests {level : Level} {s' rest : Stream} {operand : Operand}
    (hrests : s.Rests s') (hlater : s.Later s') (h : OperandPost source level s' operand rest) :
    OperandPost source level s operand rest := by
  rcases h with hphrase | hmissing
  · exact .inl (hphrase.before hlater)
  · refine .inr ⟨?_, hrests.trans hmissing.rests, hmissing.left⟩
    rw [hmissing.node, hrests.last]

private theorem gives_strayKeyword (level : Level) :
    Gives source (strayKeyword level) s (OperandPost source level s) := by
  refine gives_inString.bind fun inString s₁ hrests l₁ => gives_ite (fun _ => ?_) fun _ => ?_
  · exact gives_plain l₁ (gives_nameOperand level)
  · exact (gives_strayOperand level).imp fun _ _ _ _ h => OperandPost.of_rests hrests l₁ h

section Words

variable {level : Level} {s' : Stream}

private theorem gives_literalWord (hlater : s.Later s') (called : Bool) :
    Gives source (literalWord level called) s' (OperandPost source level s) := by
  refine Gives.after fun _ s₁ l₁ => gives_ite (fun _ => ?_) fun _ => ?_
  · exact gives_plain (hlater.trans l₁) (gives_nameOperand level)
  · exact gives_plain (hlater.trans l₁) (gives_leaf rfl trivial)

private theorem gives_classWord (hlater : s.Later s') (called : Bool) (form : PlainExpression) :
    Gives source (classWord level called form) s' (OperandPost source level s) := by
  refine gives_ite (fun _ => ?_) fun _ => ?_
  · exact gives_plain hlater (gives_nameOperand level)
  · exact gives_plain hlater (gives_leaf rfl trivial)

private theorem gives_functionWord (hg : g.ReadsRows) (hlater : s.Later s') :
    Gives g.source (g.functionWord level) s' (OperandPost g.source level s) := by
  refine Gives.after fun _ s₁ l₁ => gives_ite (fun _ => ?_) fun _ => ?_
  · exact gives_plain (hlater.trans l₁) (gives_nameOperand level)
  · exact gives_plain (hlater.trans l₁) (gives_functionExpression hg)

end Words

private theorem gives_keywordOperand (hg : g.ReadsRows) (level : Level) (word : String) :
    Gives g.source (g.keywordOperand level word) s (OperandPost g.source level s) := by
  refine (gives_nextIs _ 1).bind fun called s₁ hrests l₁ => ?_
  have name : Gives g.source (plain (nameOperand level)) s₁ (OperandPost g.source level s) :=
    gives_plain l₁ (gives_nameOperand level)
  have stray : Gives g.source (strayKeyword level) s₁ (OperandPost g.source level s) :=
    (gives_strayKeyword level).imp fun _ _ _ _ h => OperandPost.of_rests hrests l₁ h
  have included : Gives g.source (plain (g.keywordExpression .includeFile .lowest)) s₁
      (OperandPost g.source level s) := gives_plain l₁ (gives_keywordExpression hg _ rfl _)
  -- One case for each word, in the order of the grammar.
  split
  · exact gives_literalWord l₁ called
  · exact gives_literalWord l₁ called
  · exact gives_literalWord l₁ called
  · exact gives_classWord l₁ called _
  · exact gives_classWord l₁ called _
  · refine Gives.after fun _ s₂ l₂ => gives_ite (fun _ => ?_) fun _ => ?_
    · exact gives_plain (l₁.trans l₂) (gives_functionExpression hg)
    · exact gives_plain (l₁.trans l₂) (gives_leaf rfl trivial)
  · exact gives_functionWord hg l₁
  · exact gives_functionWord hg l₁
  · refine Gives.after fun _ s₂ l₂ => gives_ite (fun _ => ?_) fun _ => ?_
    · exact gives_plain (l₁.trans l₂) (gives_anonymousClass hg)
    · exact gives_plain (l₁.trans l₂) (gives_instantiation hg)
  · refine gives_ite (fun _ => ?_) fun _ => ?_
    · exact gives_plain l₁ (gives_cloneCall hg)
    · exact gives_plain l₁ (gives_keywordExpression hg .clone rfl .clone)
  · exact gives_plain l₁ (gives_keywordExpression hg .print rfl .print)
  · exact gives_plain l₁ (gives_keywordExpression hg .throwException rfl .lowest)
  · exact included
  · exact included
  · exact included
  · exact included
  · exact gives_plain l₁ (gives_yieldExpression hg)
  · exact gives_plain l₁ (gives_issetExpression hg)
  · exact gives_plain l₁ (gives_parenthesizedConstruct hg .empty rfl)
  · exact gives_plain l₁ (gives_parenthesizedConstruct hg .eval rfl)
  · exact gives_plain l₁ (gives_exitExpression hg)
  · exact gives_plain l₁ (gives_exitExpression hg)
  · exact gives_ite (fun _ => gives_plain l₁ (gives_matchExpression hg)) fun _ => name
  · exact gives_ite (fun _ => gives_plain l₁ (gives_wordArray hg .list rfl (by decide))) fun _ => name
  · exact gives_ite (fun _ => gives_plain l₁ (gives_wordArray hg .array rfl (by decide))) fun _ => stray
  · exact gives_fail
  · refine gives_ite (fun _ => gives_plain l₁ (gives_leaf rfl trivial)) fun _ => ?_
    exact gives_ite (fun _ => name) fun _ => stray

theorem gives_operand (hg : g.ReadsRows) (level : Level) :
    Gives g.source (g.operand level) s (OperandPost g.source level s) := by
  refine gives_peek.bind fun token s₁ hsees l₁ => ?_
  refine (gives_peekAt? 1).bind fun _ s₂ hrests₂ l₂ => ?_
  have l := l₁.trans l₂
  have hrests := hsees.rests.trans hrests₂
  have name : Gives g.source (plain (nameOperand level)) s₂ (OperandPost g.source level s) :=
    gives_plain l (gives_nameOperand level)
  have literal : Gives g.source (plain (leaf (.expression .literal))) s₂ (OperandPost g.source level s) :=
    gives_plain l (gives_leaf rfl trivial)
  split
  · exact gives_plain l (gives_prefixOperation hg _)
  refine gives_ite (fun _ => gives_plain l ((gives_anyVariable g).imp fun _ _ _ _ h => h.1)) fun _ => ?_
  split
  · exact name
  · exact name
  · exact name
  · exact literal
  · exact literal
  · exact Gives.after fun _ s₃ l₃ => gives_fail
  · exact gives_plain l (gives_compositeString hg _ _ rfl)
  · exact gives_plain l (gives_compositeString hg _ _ rfl)
  · exact gives_plain l (gives_compositeString hg _ _ rfl)
  · exact gives_plain l (gives_bracketArray hg)
  · exact gives_plain l (gives_parenthesized hg)
  · exact gives_plain l (gives_functionExpression hg)
  · exact (gives_keywordOperand hg level _).imp fun _ _ _ _ h => OperandPost.of_rests hrests l h
  · exact (gives_strayOperand level).imp fun _ _ _ _ h => OperandPost.of_rests hrests l h

end CaretContext.Php.Grammar
