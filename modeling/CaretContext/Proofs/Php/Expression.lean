import CaretContext.Proofs.Php.Operand

/-!
# Rows of expressions

An operator takes the expression read so far as its first operand, so the node it makes starts where
that does. An assignment takes the last operand out of what was read before it and grows every
construct around that operand.
-/

namespace CaretContext.Php.Grammar

open TokenParser

variable {g : Grammar} {source : Source} {s s' : Stream} {first : Node}

/-! ### Members -/

/-- A member behind its operator. Where it stands in braces, the next token is the opening one. -/
structure SelectorPost (source : Source) (s : Stream) (member : Member Node) (rest : Stream) : Prop where
  row : Row source .strict s.last member.nodes rest.last rest.reach
  ends : rest.reach ≤ rest.last
  braced : ∀ text value, member = .expression text value → ∃ brace tokens stop,
    s.tokens = brace :: tokens ∧ brace.kind = .symbol "\x7b" ∧ brace.span.stop ≤ stop ∧
      source.text? ⟨brace.span.start, stop⟩ = some text

theorem gives_selector (hg : g.ReadsRows) (operator : Token) (hs : s.reach ≤ s.last) :
    Gives g.source (g.selector operator) s (SelectorPost g.source s) := by
  refine gives_peek.bind fun token s₁ hsees l₁ => gives_ite (fun _ => ?_) fun _ => ?_
  · refine gives_next.bind fun _ s₂ hnext l₂ => gives_pure fun _ => ⟨?_, by grind, by simp⟩
    exact .nil (by grind) l₂.last_le_reach
  refine gives_ite (fun _ => ?_) fun _ => gives_ite (fun hbrace => ?_) fun _ => ?_
  · refine (gives_anyVariable g).bind fun n s₂ h l₂ => gives_pure fun _ => ?_
    exact ⟨h.1.row.lower (by grind), h.2, by simp⟩
  · refine gives_next.bind fun brace s₂ hnext l₂ => ?_
    refine (hg.collects_expression .lowest s₂).bind fun value s₃ hrow l₃ => ?_
    refine (gives_symbol "\x7d").bind fun closer s₄ hcloser l₄ => ?_
    refine gives_reach.bind fun place s₅ hplace _ => gives_pure fun hs => ?_
    obtain ⟨rfl, rfl⟩ := hplace
    obtain rfl := eq_of_sees hsees hnext
    refine ⟨(hrow.lower (by grind)).extend l₄, by grind, ?_⟩
    rintro text inner ⟨⟩
    obtain ⟨text, htext⟩ := Option.isSome_iff_exists.1
      (IsBoundary.text?_isSome hnext.isBoundary hs.isBoundary_reach (by grind))
    refine ⟨brace, s₂.tokens, s₅.reach, ?_, of_decide_eq_true hbrace, by grind, ?_⟩
    · rw [← hsees.rests.tokens, hnext.tokens]
    · rw [htext, Option.getD_some]
  · exact gives_pure fun _ => ⟨.nil (by grind) l₁.last_le_reach, by grind, by simp⟩

private theorem follows_of_reads {operator : AccessOperator} {op brace : Token} {tokens : List Token}
    {text : String} {stop : Nat} (hs : s.Reads source) (hfirst : first.span.stop = s.reach)
    (htokens : s.tokens = op :: brace :: tokens) (hop : op.kind = .symbol operator.text)
    (hbrace : brace.kind = .symbol "\x7b") (hstop : brace.span.stop ≤ stop)
    (htext : source.text? ⟨brace.span.start, stop⟩ = some text) :
    Follows source first.span operator text := by
  obtain ⟨taken, hsplit, hlast⟩ := hs.split
  refine ⟨taken, op, brace, tokens, stop, by rw [hsplit, htokens], hop, hbrace, ?_, hstop, htext⟩
  rw [hfirst]
  rcases hs.reach with hreach | ⟨t, rest, ht, hreach⟩
  · exact .inl (by rw [hreach, hlast])
  · rw [htokens] at ht
    obtain ⟨rfl, -⟩ := List.cons.inj ht
    exact .inr hreach

private theorem row_member {operator : AccessOperator} {t : Token} {member : Member Node} {s₁ s₂ : Stream}
    (hfirst : Phrase source s first s') (hs : s'.Reads source) (ht : s'.Takes source t s₁)
    (hkind : t.kind = .symbol operator.text) (hmember : SelectorPost source s₁ member s₂) :
    Row source .strict first.span.start (first :: member.nodes) s₂.last s₂.reach ∧
      ∀ arguments, IsBacked source (.methodCall first operator member arguments) := by
  refine ⟨hfirst.row.from_start.append hmember.row (by grind), fun arguments => ?_⟩
  rcases member with ⟨_, _⟩ | _ | ⟨text, value⟩
  · trivial
  · trivial
  · obtain ⟨brace, tokens, stop, htokens, hbrace, hstop, htext⟩ := hmember.braced text value rfl
    exact follows_of_reads hs hfirst.stop (by rw [ht.tokens, htokens]) hkind hbrace hstop htext

private theorem Parenthesized.phrase {kind : Kind Node} {opener : Token} {as arguments : List Node}
    {s₁ rest : Stream}
    (h : Parenthesized source s₁ opener arguments rest) (hfirst : Phrase source s first s')
    (has : Row source .strict first.span.start as s₁.last s₁.reach) (hlater : s'.Later rest)
    (hs : rest.Reads source) (hkind : ")" ∈ closers kind) (hloose : looseness kind = .strict)
    (hnodes : kind.nodes = as ++ arguments) (hbacked : IsBacked source kind) :
    Phrase source s ⟨kind, ⟨first.span.start, rest.reach⟩, []⟩ rest := by
  have hchildren : kind.nodes ++ [] = as ++ arguments := by rw [hnodes, List.append_nil]
  refine hfirst.grow ?_ hlater hs hbacked (h.endsBy has hkind has.lo_le_hi hchildren)
  rw [hchildren, hloose]
  exact h.append has

private theorem gives_objectAccess (hg : g.ReadsRows) (hfirst : Phrase g.source s first s') (level : Level)
    (operator : AccessOperator) (hop : ∀ t tokens, s'.tokens = t :: tokens →
      t.kind = .symbol operator.text) :
    Gives g.source (g.objectAccess level first operator) s' (Phrase g.source s) := by
  refine Gives.of_reads fun hs => gives_next.bind fun t s₁ ht l₁ => ?_
  refine (gives_selector hg t (by grind)).bind fun member s₂ hmember l₂ => ?_
  obtain ⟨hrow, hbacked⟩ := row_member hfirst hs ht (hop t _ ht.tokens) hmember
  refine (gives_allOf_atSymbol _ _).bind fun called s₃ hrests l₃ => ?_
  have hrow₃ := hrow.extend l₃
  refine gives_ite (fun _ => ?_) fun _ => ?_
  · refine (gives_argumentList hg _).bind fun arguments s₄ h l₄ => gives_close fun hs₄ => ?_
    obtain ⟨opener, hlist⟩ := h
    have hlater := l₁.trans (l₂.trans (l₃.trans l₄))
    exact hlist.phrase hfirst hrow₃ hlater hs₄ (List.mem_singleton.2 rfl) rfl rfl (hbacked _)
  · have hends := hmember.ends
    refine gives_close fun hs₃ => hfirst.grow ?_ (l₁.trans (l₂.trans l₃)) hs₃ trivial (.inl (by grind))
    rw [List.append_nil]
    exact hrow₃

private theorem gives_classAccess (hg : g.ReadsRows) (hfirst : Phrase g.source s first s') (level : Level)
    (hop : ∀ t tokens, s'.tokens = t :: tokens →
      t.kind = .symbol AccessOperator.static.text) :
    Gives g.source (g.classAccess level first) s' (Phrase g.source s) := by
  refine Gives.of_reads fun hs => gives_next.bind fun t s₁ ht l₁ => ?_
  refine (gives_selector hg t (by grind)).bind fun member s₂ hmember l₂ => ?_
  obtain ⟨hrow, hbacked⟩ := row_member hfirst hs ht (hop t _ ht.tokens) hmember
  refine (gives_allOf_atSymbol _ _).bind fun called s₃ hrests l₃ => gives_ite (fun _ => ?_) fun _ => ?_
  · refine (gives_argumentList hg _).bind fun arguments s₄ h l₄ => gives_close fun hs₄ => ?_
    obtain ⟨opener, hlist⟩ := h
    have hlater := l₁.trans (l₂.trans (l₃.trans l₄))
    exact hlist.phrase hfirst (hrow.extend l₃) hlater hs₄ (List.mem_singleton.2 rfl) rfl rfl
      (hbacked _)
  · have hlater := l₁.trans (l₂.trans l₃)
    have howner := hfirst.row.from_start.extend hlater
    have hends : s₃.reach ≤ s₃.last := by
      have := hmember.ends
      grind
    split
    · exact gives_close fun hs₃ => hfirst.grow howner hlater hs₃ trivial (.inl hends)
    · exact gives_close fun hs₃ => hfirst.grow howner hlater hs₃ trivial (.inl hends)

/-! ### Operators after an operand -/

private theorem gives_elementAccess (hg : g.ReadsRows) (hfirst : Phrase g.source s first s') :
    Gives g.source (g.elementAccess first) s' (Phrase g.source s) := by
  refine gives_next.bind fun opener s₁ hopener l₁ => (gives_skipSymbol "]").bind fun ended s₂ hskip l₂ => ?_
  obtain ⟨rfl, closer, hcloser, -⟩ | ⟨rfl, hrests⟩ := hskip
  · refine gives_close fun hs => ?_
    exact hfirst.grow (hfirst.row.from_start.extend (l₁.trans l₂)) (l₁.trans l₂) hs trivial (.inl (by grind))
  · refine (hg.collects_expression .lowest s₂).bind fun key s₃ hkey l₃ => ?_
    refine (gives_symbol "]").bind fun closer s₄ hcloser l₄ => gives_close fun hs => ?_
    refine hfirst.grow ?_ (l₁.trans (l₂.trans (l₃.trans l₄))) hs trivial (.inl (by grind))
    exact (hfirst.row.from_start.append hkey (by grind)).extend l₄

theorem gives_postfixOperation (hg : g.ReadsRows) (hfirst : Phrase g.source s first s') (level : Level)
    {token : Token} {items : List Item} (hfront : s'.items = .token token :: items) :
    Gives g.source (g.postfixOperation level first token) s' (Phrase g.source s) := by
  have hop : ∀ text, token.kind = .symbol text → ∀ t tokens, s'.tokens = t :: tokens →
      t.kind = .symbol text := by
    intro text hkind t tokens htokens
    rw [Stream.tokens_of_items hfront] at htokens
    obtain ⟨rfl, -⟩ := List.cons.inj htokens
    exact hkind
  unfold postfixOperation
  split
  · refine (gives_argumentList hg true).bind fun arguments s₁ h l₁ => gives_close fun hs => ?_
    obtain ⟨opener, hlist⟩ := h
    exact hlist.phrase hfirst hfirst.row.from_start l₁ hs (List.mem_singleton.2 rfl) rfl rfl trivial
  · exact gives_elementAccess hg hfirst
  · exact gives_objectAccess hg hfirst level .arrow (hop _ ‹_›)
  · exact gives_objectAccess hg hfirst level .nullSafe (hop _ ‹_›)
  · exact gives_classAccess hg hfirst level (hop _ ‹_›)
  · refine gives_next.bind fun mark s₁ hmark l₁ => gives_close fun hs => ?_
    exact hfirst.grow (hfirst.row.from_start.extend l₁) l₁ hs trivial (.inl (by grind))

/-! ### Assignments -/

private theorem span_assignTo (text : Source) (value target : Node) :
    (assignTo text value target).span = target.span.through value.span := by
  fun_induction assignTo text value target <;> rfl

section Assign

variable {lo hi stop lo' hi' : Nat} {value target : Node}

private theorem row_regrown {form : PlainExpression} {span : Span} (front : List Node) {last : Node}
    {text : Source}
    (hform : looseness (.expression form) = .strict)
    (h : Row source .strict lo [⟨.expression form, span, front ++ [last]⟩] hi stop)
    (hnew : Row source .strict last.span.start [last] hi stop →
      Row source .strict last.span.start [assignTo text value last] hi' value.span.stop)
    (hb : IsBoundary source value.span.stop) :
    Row source .strict lo
      [⟨.expression form, span.through value.span, front ++ [assignTo text value last]⟩] hi'
      value.span.stop := by
  have hchildren := h.children
  rw [Node.children, hform] at hchildren
  obtain ⟨hfront, hlast⟩ := hchildren.split_last
  have hrow : Row source (looseness (.expression form)) span.start
      (Kind.nodes (.expression form) ++ (front ++ [assignTo text value last])) hi' value.span.stop := by
    rw [hform]
    exact hfront.append (hnew hlast) (Nat.le_refl _)
  have hmem : assignTo text value last ∈
      Kind.nodes (.expression form) ++ (front ++ [assignTo text value last]) := by simp
  refine hrow.node trivial h.le_start (Nat.le_refl _) (Nat.le_refl _) h.isBoundary_start hb ?_
  refine (hrow.ends _ (mem_nodesIn_of_mem hmem)).within hmem ?_
  rw [span_assignTo]
  rfl

private theorem row_assignment (ht : Row source .strict lo [target] hi stop)
    (hv : Row source .strict lo' [value] hi' value.span.stop) (hle : stop ≤ lo') :
    Row source .strict lo [⟨.expression .assignment, target.span.through value.span, [target, value]⟩]
      hi' value.span.stop :=
  Row.node (ht.from_start.append hv hle) trivial ht.le_start (Nat.le_refl _) (Nat.le_refl _)
    ht.isBoundary_start (hv.laidOut value (by simp)).stop
    ((hv.ends value (by simp)).within (by simp [Node.children]) rfl)

private theorem row_assignTo (text : Source) (ht : Row source .strict lo [target] hi stop)
    (hv : Row source .strict lo' [value] hi' value.span.stop) (hle : stop ≤ lo') :
    Row source .strict lo [assignTo text value target] hi' value.span.stop := by
  have hb := (hv.laidOut value (by simp)).stop
  fun_induction assignTo text value target generalizing lo hi stop with
  | case1 span operand hstep => exact row_assignment ht hv hle
  | case2 span operand hstep ih => exact row_regrown [] rfl ht (fun h => ih h hle) hb
  | case3 span left right ih => exact row_regrown [left] rfl ht (fun h => ih h hle) hb
  | case4 span condition right ih => exact row_regrown [condition] rfl ht (fun h => ih h hle) hb
  | case5 span condition middle right ih =>
    exact row_regrown [condition, middle] rfl ht (fun h => ih h hle) hb
  | case6 target => exact row_assignment ht hv hle

end Assign

private theorem phrase_assignTo {value : Node} {rest : Stream} {lo : Nat} (text : Source)
    (hfirst : Phrase source s first s') (hv : Row source .strict lo [value] rest.last rest.reach)
    (hle : s'.reach ≤ lo) (hstop : value.span.stop = rest.reach) (hlater : s'.Later rest) :
    Phrase source s (assignTo text value first) rest := by
  rw [← hstop] at hv
  have hrow := row_assignTo text hfirst.row hv hle
  rw [hstop] at hrow
  refine ⟨hrow, ?_, Nat.le_trans hfirst.moved hlater.last_le, ?_⟩
  · rw [span_assignTo, Span.through, hstop]
  · rw [span_assignTo]
    exact hfirst.ahead

/-! ### Operators between operands -/

private theorem gives_conditionalMiddle (hg : g.ReadsRows) (short : Bool) :
    Gives g.source (g.conditionalMiddle short) s fun middle rest =>
      Row g.source .strict s.last middle rest.last rest.reach := by
  refine Gives.of_reads fun hs => gives_ite (fun _ => gives_pure fun _ => ?_) fun _ => ?_
  · exact .nil (Nat.le_refl _) hs.last_le_reach
  · exact (hg.collects_expression .lowest s).bind fun value rest hrow _ => gives_pure fun _ => hrow

private theorem Phrase.operation {kind : Kind Node} {front : List Node} {right : Node} {t : Token}
    {s₁ s₂ rest : Stream}
    (hfirst : Phrase source s first s') (hfront : Row source .strict first.span.start front s₁.last s₁.reach)
    (ht : s₁.Takes source t s₂) (hright : Valued source s₂ right rest) (hlater : s'.Later rest)
    (hs : rest.Reads source) (hkind : kind.nodes = []) (hloose : looseness kind = .strict)
    (hbacked : IsBacked source kind) :
    Phrase source s ⟨kind, ⟨first.span.start, rest.reach⟩, front ++ [right]⟩ rest := by
  have hrow : Row source (looseness kind) first.span.start (kind.nodes ++ (front ++ [right])) rest.last
      rest.reach := by
    rw [hkind, hloose]
    exact hfront.append hright.row (by grind)
  refine hfirst.grow hrow hlater hs hbacked (hrow.endsBy (hright.settles.settled (by grind)) ?_)
  simp

private theorem gives_conditional (hg : g.ReadsRows) (hfirst : Phrase g.source s first s') :
    Gives g.source (g.conditional first) s' (Phrase g.source s) := by
  refine Gives.after fun short s₁ l₁ => gives_next.bind fun mark s₂ hmark l₂ => ?_
  refine (gives_conditionalMiddle hg short).bind fun middle s₃ hmiddle l₃ => ?_
  refine (gives_symbol ":").bind fun colon s₄ hcolon l₄ => ?_
  refine (hg.value .conditional).bind fun right s₅ hright l₅ => gives_close fun hs => ?_
  have hfront := hfirst.row.from_start.append hmiddle (by grind)
  exact Phrase.operation hfirst hfront hcolon.1 hright (l₁.trans (l₂.trans (l₃.trans (l₄.trans l₅)))) hs
    rfl rfl trivial

theorem gives_infixOperation (hg : g.ReadsRows) (hfirst : Phrase g.source s first s')
    (operator : Infix) : Gives g.source (g.infixOperation first operator) s' (Phrase g.source s) := by
  have operation : ∀ {kind : Kind Node} {level : Level}, kind.nodes = [] → looseness kind = .strict →
      IsBacked g.source kind → Gives g.source (do
        let _ ← next
        let right ← g.expression level
        close kind first.span.start [first, right]) s' (Phrase g.source s) := by
    intro kind level hkind hloose hbacked
    refine gives_next.bind fun t s₁ ht l₁ => ?_
    refine (hg.value level).bind fun right s₂ hright l₂ => gives_close fun hs => ?_
    exact Phrase.operation hfirst hfirst.row.from_start ht hright (l₁.trans l₂) hs hkind hloose hbacked
  cases operator with
  | conditional => exact gives_conditional hg hfirst
  | assignment =>
    refine gives_next.bind fun t s₁ ht l₁ => ?_
    refine (gives_allOf_atSymbol _ _).bind fun byReference s₂ hrests l₂ => Gives.of_reads fun hs₂ => ?_
    refine (hg.expression _ s₂).bind fun value s₃ hvalue l₃ => gives_pure fun _ => ?_
    have hlater := l₁.trans (l₂.trans l₃)
    have hreach : s₂.reach = s₂.last := by grind
    rcases hvalue with hphrase | hmissing
    · exact phrase_assignTo g.source hfirst hphrase.row (by grind) hphrase.stop hlater
    · refine phrase_assignTo g.source hfirst (hmissing.row hs₂) (by grind) ?_ hlater
      rw [hmissing.node, hmissing.rests.reach, hreach]
      rfl
  | pipe => exact operation rfl rfl trivial
  | binary level => exact operation rfl rfl trivial

theorem operator_eq_none_of_isLeftAlone {level : Level} {t : Token} (h : isLeftAlone level t = true) :
    t.postfixLevel? = none ∧ t.infix? = none := by
  unfold isLeftAlone at h
  unfold Token.postfixLevel? Token.infix?
  split at h
  · rename_i word hkind
    have hwords : ∀ word ∈ statementKeywords, infixWords.lookup word = none := by decide
    simp only [hkind]
    exact ⟨trivial, hwords word (by simpa using h)⟩
  · rename_i text hkind
    have htexts : ∀ text ∈ closingSymbols, postfixSymbols.lookup text = none ∧
        infixSymbols.lookup text = none := by decide
    simp only [hkind]
    simp only [Bool.and_eq_true, List.contains_iff_mem] at h
    exact htexts text h.2
  · cases h

private theorem gives_operators (hg : g.ReadsRows) (level : Level) {operand : Operand}
    (h : OperandPost g.source level s operand s') :
    Gives g.source (g.operators level operand) s' fun n rest =>
      Phrase g.source s n rest ∨ Missing level s n rest := by
  refine gives_repeating (OperandPost g.source level s) h fun operand s₁ _ hinv => ?_
  rcases hinv with hphrase | hmissing
  · refine gives_peek?.bind fun found s₂ hfound l₂ => ?_
    have hphrase₂ := hphrase.of_rests hfound.1
    have stops : Gives g.source (pure (.stop operand.node)) s₂
        (Turn.Keeps (OperandPost g.source level s) fun n rest =>
          Phrase g.source s n rest ∨ Missing level s n rest) := gives_pure fun _ => .inl hphrase₂
    cases found with
    | none => exact stops
    | some token =>
      obtain ⟨items, hfront⟩ := (hfound.2 token rfl).front
      dsimp only
      split
      · refine gives_ite (fun _ => stops) fun _ => ?_
        refine (gives_postfixOperation hg hphrase₂ level hfront).bind fun n s₃ hn _ => ?_
        exact gives_pure fun _ => .inl hn
      · split
        · refine gives_ite (fun _ => ?_) fun _ => stops
          refine (gives_infixOperation hg hphrase₂ _).bind fun n s₃ hn _ => ?_
          exact gives_pure fun _ => .inl hn
        · exact stops
  · refine (gives_peek?_of_isLeft hmissing.left).bind fun found s₂ hfound l₂ => ?_
    obtain ⟨rfl, t, rfl, hleft⟩ := hfound
    obtain ⟨hafter, hbetween⟩ := operator_eq_none_of_isLeftAlone hleft
    simp only [hafter, hbetween]
    exact gives_pure fun _ => .inr hmissing

theorem gives_expressionStep (hg : g.ReadsRows) (level : Level) :
    Gives g.source (g.expressionStep level) s fun n rest =>
      Phrase g.source s n rest ∨ Missing level s n rest :=
  (gives_operand hg level).bind fun _ _ hoperand _ => gives_operators hg level hoperand

end CaretContext.Php.Grammar
