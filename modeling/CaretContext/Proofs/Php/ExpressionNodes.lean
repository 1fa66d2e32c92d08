import CaretContext.Proofs.Php.Expression
import CaretContext.Proofs.Php.OperandNodes

/-!
# Nodes of expressions

A member is spelled by the tokens behind its operator and ends with the last of them, so the arguments of a
call follow it. Where it stands in braces, all from the opening brace on is its text.
-/

namespace CaretContext.Php.Grammar

open TokenParser

variable {g : Grammar} {source : Source} {s s' : Stream} {first : Node}

/-! ### Members -/

/-- A member that has been read from `s` on, behind its operator. It ends with the last token taken. -/
inductive Selects (source : Source) (s : Stream) : Member Node → Stream → Prop
  | named {name : String} {span : Span} {rest : Stream} (text : source.text? span = some name)
      (stop : span.stop = rest.last) : Selects source s (.named name span) rest
  | variable {node : Node} {rest : Stream} (isVariable : IsVariable source node rest) :
      Selects source s (.variable node) rest
  | braced {text : String} {value : Node} {rest : Stream} {brace : Token} {inner : List Token}
      (grown : Grown source .expression value) (tokens : s.tokens = brace :: inner ++ rest.tokens)
      (kind : brace.kind = .symbol "\x7b") (reach : rest.reach = rest.last)
      (spells : source.text? ⟨brace.span.start, rest.last⟩ = some text) :
      Selects source s (.expression text value) rest

private theorem text?_empty {offset : Nat} (h : IsBoundary source offset) :
    source.text? (.empty offset) = some "" := by
  obtain ⟨before, after, hchars, rfl⟩ := h
  have hcut := @text?_of_append source before [] after (by simpa using hchars)
  simpa [byteSize, Span.empty] using hcut

private theorem gives_selects (hg : g.Produces) {operator : Token} (hs : s.Reads g.source)
    (hoperator : operator.span.stop = s.last) :
    Gives g.source (g.selector operator) s (Selects g.source s) := by
  refine gives_peek.bind fun token s₁ hsees l₁ => gives_ite (fun _ => ?_) fun _ => ?_
  · refine gives_next.bind fun t s₂ ht l₂ => gives_pure fun _ => ?_
    obtain rfl := eq_of_sees hsees ht
    have hmem : t ∈ s.tokens := by simp [← hsees.rests.tokens, ht.tokens]
    exact .named (text?_of_mem_tokensOf (hs.mem_tokensOf hmem)) ht.last.symm
  refine gives_ite (fun _ => ?_) fun _ => gives_ite (fun hbrace => ?_) fun _ => ?_
  · exact (gives_isVariable g).bind fun n s₂ hn _ => gives_pure fun _ => .variable hn
  · refine gives_next.bind fun brace s₂ hnext l₂ => ?_
    refine (hg.expression .lowest s₂).bind fun value s₃ hvalue l₃ => ?_
    refine (gives_symbol "\x7d").bind fun closer s₄ hcloser l₄ => ?_
    refine gives_reach.bind fun place s₅ hplace _ => gives_pure fun hs₅ => ?_
    obtain ⟨rfl, rfl⟩ := hplace
    obtain rfl := eq_of_sees hsees hnext
    have hreach : s₅.reach = s₅.last := by grind
    obtain ⟨inner, hinner⟩ := (l₃.trans l₄).leads.tokens_suffix
    obtain ⟨text, htext⟩ := Option.isSome_iff_exists.1
      (IsBoundary.text?_isSome hnext.isBoundary hs₅.isBoundary_reach (by grind))
    rw [htext, Option.getD_some]
    have htokens : s.tokens = brace :: inner ++ s₅.tokens := by
      rw [← hsees.rests.tokens, hnext.tokens, ← hinner, List.cons_append]
    exact .braced hvalue htokens (of_decide_eq_true hbrace) hreach (hreach ▸ htext)
  · refine gives_pure fun _ => .named (text?_empty ?_) ?_
    · rw [hoperator]
      exact hs.isBoundary_last
    · rw [hsees.rests.last]
      exact hoperator

private theorem IsVariable.of_rests {n : Node} (h : IsVariable source n s) (hrests : s.Rests s') :
    IsVariable source n s' := by
  obtain ⟨-, hlast, hreach⟩ := hrests
  exact ⟨h.grown, h.kind, hlast ▸ h.stop, hlast ▸ hreach ▸ h.reach⟩

private theorem Selects.of_rests {member : Member Node} {s₁ s₂ : Stream} (h : Selects source s member s₁)
    (hrests : s₁.Rests s₂) : Selects source s member s₂ := by
  have hrests' := hrests
  obtain ⟨htokens, hlast, hreach⟩ := hrests'
  cases h with
  | named text stop => exact .named text (hlast ▸ stop)
  | «variable» isVariable => exact .variable (isVariable.of_rests hrests)
  | braced grown tokens kind reach spells =>
    rw [← htokens] at tokens
    rw [← hlast] at spells reach
    exact .braced grown tokens kind (hreach.trans reach) spells

/-! ### Accesses -/

/-- A receiver and a member that has been read behind it. -/
structure Accesses (source : Source) (first : Node) (operator : AccessOperator) (member : Member Node)
    (rest : Stream) : Prop where
  reads : rest.Reads source
  receiver : Grown source .expression first
  start : first.span.start ≤ rest.last
  isBoundary : IsBoundary source first.span.start
  members : AllGrown source .expression member.nodes
  spells : ∀ hi, rest.last ≤ hi → SpellsMember source first.span.stop hi member
  ends : ∃ taken, tokensOf source = taken ++ rest.tokens ∧ rest.last = lastStop taken ∧
    EndsMember source first.span operator taken member
  property : ∀ node, member = .variable node →
    first.span.start ≤ node.span.start ∧ node.span.stop = rest.reach

private theorem Selects.exists_taken {operator : AccessOperator} {op : Token} {member : Member Node}
    {s₁ rest : Stream} (h : Selects source s₁ member rest) (hs : s.Reads source) (hrest : rest.Reads source)
    (hop : s.Takes source op s₁) (hkind : op.kind = .symbol operator.text)
    (hstop : first.span.stop = s.reach) :
    ∃ taken, tokensOf source = taken ++ rest.tokens ∧ rest.last = lastStop taken ∧
      EndsMember source first.span operator taken member := by
  obtain ⟨taken, hsplit, hlast⟩ := hrest.split
  refine ⟨taken, hsplit, hlast, ?_⟩
  cases h with
  | named text stop => exact stop.trans hlast
  | «variable» isVariable => exact isVariable.stop.trans hlast
  | @braced text value _ brace inner grown tokens kind reach spells =>
    obtain ⟨front, hfront, hfrontLast⟩ := hs.split
    have htaken : taken = front ++ op :: brace :: inner := by
      rw [hfront, hop.tokens, tokens] at hsplit
      have hsame : (front ++ op :: brace :: inner) ++ rest.tokens = taken ++ rest.tokens := by
        simpa using hsplit
      exact (List.append_cancel_right hsame).symm
    refine ⟨front, op, brace, inner, htaken, hkind, kind, ?_, hlast ▸ spells⟩
    rw [hstop]
    rcases hs.reach with hreach | ⟨t, tokens, ht, hreach⟩
    · exact .inl (hreach.trans hfrontLast)
    · rw [hop.tokens] at ht
      obtain ⟨rfl, -⟩ := List.cons.inj ht
      exact .inr hreach

private theorem Selects.spellsMember {member : Member Node} {rest : Stream} {lo hi : Nat}
    (h : Selects source s member rest) (hs : s.Reads source) (hlo : lo ≤ s.last) (hhi : rest.last ≤ hi) :
    SpellsMember source lo hi member := by
  cases h with
  | named text stop => exact ⟨text, eq_empty_iff_of_text? text⟩
  | «variable» isVariable => exact isVariable.kind
  | @braced text value _ brace inner grown tokens kind reach spells =>
    have hle := hs.last_le_start (by simp [tokens] : brace ∈ s.tokens)
    exact ⟨_, _, Nat.le_trans hlo hle, hhi, spells⟩

private theorem Selects.allGrown {member : Member Node} {rest : Stream} (h : Selects source s member rest) :
    AllGrown source .expression member.nodes := by
  cases h with
  | named => exact allGrown_nil
  | «variable» isVariable => exact allGrown_singleton isVariable.grown
  | braced grown => exact allGrown_singleton grown

/-- What both sorts of access have in common: the operator is taken, the member is read, and then it is
seen whether it is called. -/
theorem gives_access (hg : g.Produces) (hfirst : Phrase g.source s first s')
    (hgrown : Grown g.source .expression first) {operator : AccessOperator}
    (hop : ∀ t tokens, s'.tokens = t :: tokens → t.kind = .symbol operator.text) (level : Level)
    {after : Member Node → Bool → TokenParser Node} {post : Node → Stream → Prop}
    (hafter : ∀ member called rest, Accesses g.source first operator member rest →
      Gives g.source (after member called) rest post) :
    Gives g.source (do
      let token ← next
      let member ← g.selector token
      let called ← allOf [pure (level ≤ .call), atSymbol "("]
      after member called) s' post := by
  refine Gives.of_reads fun hs => gives_next.bind fun op s₁ ht l₁ => Gives.of_reads fun hs₁ => ?_
  refine ((gives_selector hg.rows op (by grind)).and (gives_selects hg hs₁ ht.last.symm)).bind
    fun member s₂ hmember l₂ => ?_
  refine (gives_allOf_atSymbol _ _).bind fun called s₃ hrests l₃ => Gives.of_reads fun hs₃ =>
    hafter member called s₃ ?_
  have hselects := hmember.2.of_rests hrests
  have hle : first.span.start ≤ s'.last := (hfirst.row.starts first (by simp)).2
  have hstop : first.span.stop ≤ s₁.last := by
    rw [hfirst.stop]
    grind
  refine ⟨hs₃, hgrown, by grind, hfirst.row.isBoundary_start, hselects.allGrown,
    fun hi hhi => hselects.spellsMember hs₁ hstop hhi, ?_, ?_⟩
  · exact hselects.exists_taken hs hs₃ ht (hop op _ ht.tokens) hfirst.stop
  · rintro node rfl
    cases hselects with
    | «variable» isVariable =>
      have hstart := (hmember.1.row.starts node (by simp [Member.nodes])).1
      exact ⟨by grind, isVariable.stop.trans isVariable.reach.symm⟩

section Access

variable {operator : AccessOperator} {member : Member Node} {rest : Stream}

private theorem Accesses.methodCall (h : Accesses source first operator member s) {arguments : List Node}
    (harguments : AllGrown source .argument arguments) (hopens : OpensArguments s rest)
    (hlater : s.Later rest) :
    Grown source .expression
      ⟨.methodCall first operator member arguments, ⟨first.span.start, rest.reach⟩, []⟩ := by
  obtain ⟨taken, hsplit, hlast, hends⟩ := h.ends
  obtain ⟨opener, next, tokens, htokens, hkind, hle⟩ := hopens
  have hstart := h.start
  have hspells := h.spells rest.reach (Nat.le_trans hlater.last_le hlater.last_le_reach)
  refine .of_children rfl ⟨h.receiver, h.members, harguments⟩ .nil hspells ?_
  exact ⟨taken, opener, next, ⟨⟨tokens, by rw [hsplit, htokens]⟩, hkind, hlast ▸ hstart, hle⟩, hends⟩

private theorem Accesses.propertyAccess (h : Accesses source first operator member s) :
    Grown source .expression ⟨.propertyAccess first operator member, ⟨first.span.start, s.reach⟩, []⟩ :=
  .of_children rfl ⟨h.receiver, h.members⟩ .nil (h.spells _ h.reads.last_le_reach) trivial

private theorem Accesses.staticPropertyAccess {name : String} {span : Span} {children : List Node}
    (h : Accesses source first operator (.variable ⟨.variable name, span, children⟩) s) :
    Grown source .expression ⟨.staticPropertyAccess first name, ⟨first.span.start, s.reach⟩, []⟩ := by
  refine .of_children rfl h.receiver .nil ?_ trivial
  obtain ⟨hstart, hstop⟩ := h.property _ rfl
  have hvariable : Grown source .expression ⟨.variable name, span, children⟩ :=
    h.members _ (by simp [Member.nodes])
  have hspelled : source.text? span = some ("$" ++ name) := hvariable.self.spelled
  have hle := Nat.le_trans h.start h.reads.last_le_reach
  obtain ⟨text, htext⟩ := Option.isSome_iff_exists.1
    (IsBoundary.text?_isSome h.isBoundary h.reads.isBoundary_reach hle)
  refine ⟨text, htext, suffix_of_text? htext ?_ hstart⟩
  rw [← hstop]
  exact hspelled

end Access

private theorem gives_objectAccess_grown (hg : g.Produces) (hfirst : Phrase g.source s first s')
    (hgrown : Grown g.source .expression first) (level : Level) (operator : AccessOperator)
    (hop : ∀ t tokens, s'.tokens = t :: tokens → t.kind = .symbol operator.text) :
    Gives g.source (g.objectAccess level first operator) s' fun n _ => Grown g.source .expression n := by
  refine gives_access hg hfirst hgrown hop level fun member called s₁ haccess => ?_
  refine gives_ite (fun _ => ?_) fun _ => gives_close fun _ => haccess.propertyAccess
  refine ((makes_argumentList hg _ s₁).and (gives_argumentList_opensArguments g _)).bind
    fun arguments s₂ harguments l₂ => gives_close fun _ => ?_
  exact haccess.methodCall harguments.1 harguments.2 l₂

private theorem gives_classAccess_grown (hg : g.Produces) (hfirst : Phrase g.source s first s')
    (hgrown : Grown g.source .expression first) (level : Level)
    (hop : ∀ t tokens, s'.tokens = t :: tokens → t.kind = .symbol AccessOperator.static.text) :
    Gives g.source (g.classAccess level first) s' fun n _ => Grown g.source .expression n := by
  refine gives_access hg hfirst hgrown hop level fun member called s₁ haccess => ?_
  refine gives_ite (fun _ => ?_) fun _ => ?_
  · refine ((makes_argumentList hg _ s₁).and (gives_argumentList_opensArguments g _)).bind
      fun arguments s₂ harguments l₂ => gives_close fun _ => ?_
    exact haccess.methodCall harguments.1 harguments.2 l₂
  · split
    · exact gives_close fun _ => haccess.staticPropertyAccess
    · exact makes_operation rfl (allGrown_singleton hgrown) s₁

private theorem makes_elementAccess (hg : g.Produces) (hgrown : Grown g.source .expression first) :
    Makes g.source (g.elementAccess first) (Grown g.source .expression) := by
  refine Makes.after fun _ => Makes.after fun _ => makes_ite (fun _ => ?_) fun _ => ?_
  · exact makes_operation rfl (allGrown_singleton hgrown)
  · refine (hg.expression .lowest).bind fun key hkey => Makes.after fun _ => ?_
    exact makes_operation rfl (allGrown_pair hgrown hkey)

private theorem gives_postfixOperation_grown (hg : g.Produces) (hfirst : Phrase g.source s first s')
    (hgrown : Grown g.source .expression first) (level : Level) {token : Token} {items : List Item}
    (hfront : s'.items = .token token :: items) :
    Gives g.source (g.postfixOperation level first token) s' fun n _ => Grown g.source .expression n := by
  have hop : ∀ text, token.kind = .symbol text → ∀ t tokens, s'.tokens = t :: tokens →
      t.kind = .symbol text := by
    intro text hkind t tokens htokens
    rw [Stream.tokens_of_items hfront] at htokens
    obtain ⟨rfl, -⟩ := List.cons.inj htokens
    exact hkind
  unfold postfixOperation
  split
  · refine Gives.of_reads fun hs => ?_
    refine ((makes_argumentList hg true s').and (gives_argumentList_opensArguments g true)).bind
      fun arguments s₁ harguments _ => gives_close fun _ => ?_
    have hstart := (hfirst.row.starts first (by simp)).2
    have hends := hfirst.row.ends first (mem_nodesIn_of_mem (by simp))
    exact grown_functionCall hs hgrown hstart hfirst.stop hends harguments.1 harguments.2
  · exact makes_elementAccess hg hgrown s'
  · exact gives_objectAccess_grown hg hfirst hgrown level .arrow (hop _ ‹_›)
  · exact gives_objectAccess_grown hg hfirst hgrown level .nullSafe (hop _ ‹_›)
  · exact gives_classAccess_grown hg hfirst hgrown level (hop _ ‹_›)
  · exact Gives.after fun _ s₁ _ => makes_operation rfl (allGrown_singleton hgrown) s₁

/-! ### Operators between operands -/

private theorem grown_assignTo {value target : Node} (text : Source) (hvalue : Grown source .expression value)
    (htarget : Grown source .expression target) : Grown source .expression (assignTo text value target) := by
  fun_induction assignTo text value target with
  | case1 span operand hstep => exact grown_operation rfl (allGrown_pair htarget hvalue)
  | case2 span operand hstep ih =>
    have hoperands := htarget.operands rfl rfl
    have hlast := ih (hoperands operand (by simp))
    exact grown_operation rfl (allGrown_singleton hlast)
  | case3 span left right ih =>
    have hoperands := htarget.operands rfl rfl
    have hlast := ih (hoperands right (by simp))
    exact grown_operation rfl (allGrown_pair (hoperands left (by simp)) hlast)
  | case4 span condition right ih =>
    have hoperands := htarget.operands rfl rfl
    have hlast := ih (hoperands right (by simp))
    exact grown_operation rfl (allGrown_pair (hoperands condition (by simp)) hlast)
  | case5 span condition middle right ih =>
    have hoperands := htarget.operands rfl rfl
    have hlast := ih (hoperands right (by simp))
    refine grown_operation rfl (List.forall_mem_cons.2 ⟨hoperands condition (by simp), ?_⟩)
    exact allGrown_pair (hoperands middle (by simp)) hlast
  | case6 target => exact grown_operation rfl (allGrown_pair htarget hvalue)

private theorem makes_conditionalMiddle (hg : g.Produces) (short : Bool) :
    Makes g.source (g.conditionalMiddle short) (AllGrown g.source .expression) :=
  makes_ite (fun _ => makes_pure allGrown_nil) fun _ =>
    (hg.expression .lowest).bind fun _ hvalue => makes_pure (allGrown_singleton hvalue)

private theorem makes_conditional (hg : g.Produces) (hgrown : Grown g.source .expression first) :
    Makes g.source (g.conditional first) (Grown g.source .expression) := by
  refine Makes.after fun _ => Makes.after fun _ => (makes_conditionalMiddle hg _).bind fun _ hmiddle => ?_
  refine Makes.after fun _ => (hg.expression .conditional).bind fun right hright => makes_operation rfl ?_
  exact List.forall_mem_append.2 ⟨List.forall_mem_cons.2 ⟨hgrown, hmiddle⟩, allGrown_singleton hright⟩

private theorem makes_infixOperation (hg : g.Produces) (hgrown : Grown g.source .expression first)
    (operator : Infix) : Makes g.source (g.infixOperation first operator) (Grown g.source .expression) := by
  cases operator with
  | conditional => exact makes_conditional hg hgrown
  | assignment =>
    refine Makes.after fun _ => Makes.after fun _ => (hg.expression _).bind fun value hvalue => ?_
    exact makes_pure (grown_assignTo g.source hvalue hgrown)
  | pipe =>
    refine Makes.after fun _ => (hg.expression .pipe).bind fun right hright => ?_
    exact makes_operation rfl (allGrown_pair hgrown hright)
  | binary level =>
    refine Makes.after fun _ => (hg.expression level).bind fun right hright => ?_
    exact makes_operation rfl (allGrown_pair hgrown hright)

private theorem gives_operators_grown (hg : g.Produces) (level : Level) {operand : Operand}
    (h : OperandPost g.source level s operand s') (hgrown : Grown g.source .expression operand.node) :
    Gives g.source (g.operators level operand) s' fun n _ => Grown g.source .expression n := by
  refine gives_repeating (fun operand s₁ => OperandPost g.source level s operand s₁ ∧
    Grown g.source .expression operand.node) ⟨h, hgrown⟩ fun operand s₁ _ hinv => ?_
  obtain ⟨hpost, hgrown⟩ := hinv
  rcases hpost with hphrase | hmissing
  · refine gives_peek?.bind fun found s₂ hfound l₂ => ?_
    have hphrase₂ := hphrase.of_rests hfound.1
    have stops : Gives g.source (pure (.stop operand.node)) s₂
        (Turn.Keeps (fun operand s₁ => OperandPost g.source level s operand s₁ ∧
          Grown g.source .expression operand.node) fun n _ => Grown g.source .expression n) :=
      gives_pure fun _ => hgrown
    cases found with
    | none => exact stops
    | some token =>
      obtain ⟨items, hfront⟩ := (hfound.2 token rfl).front
      dsimp only
      split
      · refine gives_ite (fun _ => stops) fun _ => ?_
        refine ((gives_postfixOperation hg.rows hphrase₂ level hfront).and
          (gives_postfixOperation_grown hg hphrase₂ hgrown level hfront)).bind fun n s₃ hn _ => ?_
        exact gives_pure fun _ => ⟨.inl hn.1, hn.2⟩
      · split
        · refine gives_ite (fun _ => ?_) fun _ => stops
          refine ((gives_infixOperation hg.rows hphrase₂ _).and
            (makes_infixOperation hg hgrown _ s₂)).bind fun n s₃ hn _ => ?_
          exact gives_pure fun _ => ⟨.inl hn.1, hn.2⟩
        · exact stops
  · refine (gives_peek?_of_isLeft hmissing.left).bind fun found s₂ hfound l₂ => ?_
    obtain ⟨rfl, t, rfl, hleft⟩ := hfound
    obtain ⟨hafter, hbetween⟩ := operator_eq_none_of_isLeftAlone hleft
    simp only [hafter, hbetween]
    exact gives_pure fun _ => hgrown

theorem makes_expressionStep (hg : g.Produces) (level : Level) :
    Makes g.source (g.expressionStep level) (Grown g.source .expression) :=
  fun s => ((gives_operand hg.rows level).and (makes_operand hg level s)).bind
    fun _ _ hoperand _ => gives_operators_grown hg level hoperand.1 hoperand.2

end CaretContext.Php.Grammar
