import CaretContext.Proofs.Php.Phrase

/-!
# Rows of variables, arguments and parameters
-/

namespace CaretContext.Php.Grammar

open TokenParser

variable {g : Grammar} {s : Stream} {start : Nat}

/-! ### Variables -/

private theorem gives_variableTokens (g : Grammar) (hstart : Opens g.source s start) :
    Gives g.source g.variableTokens s fun _ rest =>
      s.reach ≤ rest.last ∧ start ≤ rest.last ∧ rest.reach ≤ rest.last := by
  refine gives_repeating (fun _ _ => True) trivial fun _ s₁ l₁ _ => ?_
  refine (gives_expect _).bind fun t s₂ ht l₂ => ?_
  have hle := (hstart.leads l₁.leads).le_last ht.1
  refine gives_ite (fun _ => gives_pure fun _ => trivial) fun _ => gives_ite (fun _ => ?_) fun _ => ?_
  · refine Gives.after fun _ s₃ l₃ => (gives_symbol "\x7d").bind fun brace s₄ hbrace l₄ => ?_
    exact gives_pure fun _ => ⟨by grind, by grind, by grind⟩
  · exact gives_pure fun _ => ⟨by grind, hle, by grind⟩

theorem gives_anyVariable (g : Grammar) : Gives g.source g.anyVariable s fun n rest =>
    Phrase g.source s n rest ∧ rest.reach ≤ rest.last := by
  refine gives_startOfNext.bind fun start s₁ hstart l₁ => ?_
  obtain ⟨hopens, hlast, -, hahead⟩ := hstart
  refine (g.gives_variableTokens hopens).bind fun _ s₂ hmoved l₂ => ?_
  obtain ⟨hreach, hle, hends⟩ := hmoved
  refine gives_reach.bind fun place s₃ hplace _ => gives_pure fun hs => ?_
  obtain ⟨rfl, rfl⟩ := hplace
  refine ⟨Started.phrase ?_ l₁ hlast hahead, hends⟩
  have hnone : Row g.source .strict s₃.last [] s₃.last s₃.reach := .nil (Nat.le_refl _) hs.last_le_reach
  exact .of_close hnone hs trivial hopens.isBoundary hle hreach (.inl hends)

/-! ### Arguments -/

abbrev IsArgument (source : Source) (start : Nat) (argument : Argument) (rest : Stream) : Prop :=
  Row source .strict start [argument.node] rest.last rest.reach ∧ argument.node.span.stop = rest.reach

private theorem gives_argumentValue (hg : g.ReadsRows) (form : ArgumentForm) (hb : IsBoundary g.source start)
    (hle : start ≤ s.last) (hs : s.reach ≤ s.last) :
    Gives g.source (g.argumentValue form start) s (IsArgument g.source start) := by
  refine (hg.value .lowest).bind fun value s₁ hvalue l₁ => ?_
  refine (gives_close fun hs₁ => ?_).bind fun node s₂ hnode _ => gives_pure fun _ => hnode
  exact ⟨hvalue.row.close hs₁ trivial (Nat.le_refl _) hle hb
    (hvalue.row.endsBy (hvalue.settles.settled hs) (List.Subset.refl _)), rfl⟩

private theorem gives_placeholder {source : Source} (hstart : Opens source s start) :
    Gives source (placeholder start) s (IsArgument source start) := by
  refine gives_next.bind fun t s₁ ht l₁ => ?_
  refine (gives_close fun hs => ?_).bind fun node s₂ hnode _ => gives_pure fun _ => hnode
  have hnone : Row source .strict s₁.last [] s₁.last s₁.reach := .nil (Nat.le_refl _) hs.last_le_reach
  have hends : s₁.reach ≤ s₁.last := by grind
  exact ⟨hnone.close hs trivial (Nat.le_refl _) (hstart.le_last ht) hstart.isBoundary (.inl hends), rfl⟩

private theorem IsArgument.filled {source : Source} {argument : Argument} {closer : String} {rest : Stream}
    (h : IsArgument source start argument rest) (hle : s.last ≤ start) :
    Filled source closer s [argument.node] rest := by
  have hreach := h.1.hi_le_stop
  exact ⟨h.1.lower hle, .inr (.inl ⟨_, List.mem_singleton.2 rfl, h.2 ▸ hreach⟩)⟩

theorem gives_argument (hg : g.ReadsRows) (withHoles : Bool) (closer : String) :
    Gives g.source (g.argument withHoles) s fun argument rest =>
      Filled g.source closer s [argument.node] rest := by
  refine gives_peek.bind fun token s₁ hsees l₁ => ?_
  have hopens : Opens g.source s₁ token.span.start := ⟨hsees.isBoundary, hsees.ahead⟩
  have fill : ∀ {p s₂}, Gives g.source p s₂ (IsArgument g.source token.span.start) →
      Gives g.source p s₂ fun argument rest => Filled g.source closer s [argument.node] rest :=
    fun h => h.imp fun _ _ _ _ hargument => IsArgument.filled hargument hsees.last_le
  refine Gives.after fun named s₂ l₂ => gives_ite (fun _ => ?_) fun _ => gives_ite (fun _ => ?_) fun _ =>
    gives_ite (fun _ => fill (gives_placeholder (hopens.leads l₂.leads))) fun _ => ?_
  · refine gives_next.bind fun name s₃ hname l₃ => gives_next.bind fun colon s₄ hcolon l₄ => ?_
    have hle := (hopens.leads l₂.leads).le_last hname
    refine (gives_allOf_atSymbol _ _).bind fun _ s₅ hrests l₅ => gives_ite (fun _ => ?_) fun _ => ?_
    · exact fill (gives_placeholder (hopens.leads ((l₂.trans l₃).trans (l₄.trans l₅)).leads))
    · exact fill (gives_argumentValue hg .named hopens.isBoundary (by grind) (by grind))
  · refine Gives.after fun _ s₃ l₃ => gives_ite (fun _ => ?_) fun _ => ?_
    · exact fill (gives_placeholder (hopens.leads (l₂.trans l₃).leads))
    · refine gives_next.bind fun points s₄ hpoints l₄ => ?_
      have hle := (hopens.leads (l₂.trans l₃).leads).le_last hpoints
      exact fill (gives_argumentValue hg .spread hopens.isBoundary hle (by grind))
  · refine (hg.value .lowest).bind fun value s₃ hvalue l₃ => gives_pure fun _ => ?_
    refine ⟨(hvalue.row.lower (l₁.trans l₂).last_le).wrap rfl trivial, .inr (.inl ?_)⟩
    exact ⟨_, List.mem_singleton.2 rfl, hvalue.covers⟩

/-- A list in parentheses that follows what was read before. -/
structure Parenthesized (source : Source) (s : Stream) (opener : Token) (ns : List Node) (rest : Stream) :
    Prop extends Listing source opener ")" ns rest where
  last_le : s.last ≤ opener.span.start
  reach_le : s.reach ≤ opener.span.stop

namespace Parenthesized

variable {source : Source} {opener : Token} {as ns : List Node} {rest : Stream} {lo : Nat}

theorem append (h : Parenthesized source s opener ns rest) (has : Row source .strict lo as s.last s.reach) :
    Row source .strict lo (as ++ ns) rest.last rest.reach :=
  has.append h.row h.reach_le

/-- A construct that ends with the list lacks its end if the list does. -/
theorem endsBy {kind : Kind Node} {children : List Node} (h : Parenthesized source s opener ns rest)
    (has : Row source .strict lo as s.last s.reach) (hkind : ")" ∈ closers kind) (hstart : start ≤ s.last)
    (hchildren : kind.nodes ++ children = as ++ ns) :
    EndsBy source ⟨kind, ⟨start, rest.reach⟩, children⟩ rest.last := by
  refine h.ends.endsBy ⟨Nat.le_trans hstart h.last_le, ?_, fun c hc => ?_⟩ hkind rfl
  · rw [Node.children, hchildren]
    exact List.subset_append_right _ _
  · rw [Node.children, hchildren, List.mem_append] at hc
    exact hc.symm.imp_right fun hc => Nat.le_trans (has.stops c hc) h.reach_le

end Parenthesized

theorem gives_argumentList (hg : g.ReadsRows) (withHoles : Bool) :
    Gives g.source (g.argumentList withHoles) s fun arguments rest =>
      ∃ opener, Parenthesized g.source s opener (arguments.map (·.node)) rest := by
  refine (gives_symbol "(").bind fun opener s₁ hopener l₁ => ?_
  have hlist := gives_bracketed ")" (fun argument => [Argument.node argument]) hopener.1 hopener.2
    (by decide) fun s => gives_argument hg withHoles ")"
  refine hlist.imp fun arguments rest _ _ h => ⟨opener, ?_, hopener.1.last_le, hopener.1.reach_le⟩
  rw [List.map_eq_flatMap]
  exact h

theorem gives_optionalArguments (hg : g.ReadsRows) : Gives g.source g.optionalArguments s fun ns rest =>
    (ns = [] ∧ s.Rests rest) ∨ ∃ opener, Parenthesized g.source s opener ns rest := by
  refine (gives_nextIs _ 0).bind fun found s₁ hrests l₁ => gives_ite (fun _ => ?_) fun _ => ?_
  · refine (gives_argumentList hg false).bind fun arguments s₂ h l₂ => gives_pure fun _ => .inr ?_
    obtain ⟨opener, hlist, hlast, hreach⟩ := h
    exact ⟨opener, hlist, hrests.last ▸ hlast, hrests.reach ▸ hreach⟩
  · exact gives_pure fun _ => .inl ⟨rfl, hrests⟩

/-- What is closed over a construct and its arguments, if it has any. -/
theorem row_optionalArguments {source : Source} {as ns children : List Node} {lo : Nat} {rest : Stream}
    (kind : Kind Node) (start : Nat)
    (h : (ns = [] ∧ s.Rests rest) ∨ ∃ opener, Parenthesized source s opener ns rest)
    (has : Row source .strict lo as s.last s.reach) (hsettled : Settled as s) (hkind : ")" ∈ closers kind)
    (hstart : start ≤ s.last) (hchildren : kind.nodes ++ children = as ++ ns) :
    Row source .strict lo (as ++ ns) rest.last rest.reach ∧
      EndsBy source ⟨kind, ⟨start, rest.reach⟩, children⟩ rest.last := by
  rcases h with ⟨rfl, hrests⟩ | ⟨opener, hlist⟩
  · have hrow : Row source .strict lo (as ++ []) rest.last rest.reach := by
      rw [List.append_nil, hrests.last, hrests.reach]
      exact has
    refine ⟨hrow, Row.endsBy (hchildren ▸ hrow) (hsettled.passes (.inl hrests)) ?_⟩
    rw [hchildren]
    exact List.subset_append_left _ _
  · exact ⟨hlist.append has, hlist.endsBy has hkind hstart hchildren⟩

/-! ### Parameters -/

/-- A value behind an equals sign, which may be missing. -/
structure OptionalValue (source : Source) (s : Stream) (ns : List Node) (rest : Stream) : Prop where
  row : ∀ lo, lo ≤ s.last → Row source .strict lo ns rest.last rest.reach
  settles : Settles s ns rest
  awaits : ∀ start, s.Ahead start → Awaits source start [] s → Awaits source start [] rest

theorem gives_optionalValue (hg : g.ReadsRows) :
    Gives g.source g.optionalValue s (OptionalValue g.source s) := by
  refine (gives_skipSymbol "=").bind fun found s₁ hskip l₁ => ?_
  obtain ⟨rfl, equals, htakes, hequals⟩ | ⟨rfl, hrests⟩ := hskip
  · -- The value follows the sign, and is no end of a statement even if it is not kept.
    have hawaits : Gives g.source (g.expression .lowest) s₁ fun _ rest =>
        ∀ start, s.Ahead start → Awaits g.source start [] rest := by
      intro hs value rest hrun start hahead
      exact hg.awaits_value htakes.isBehind (hahead.le htakes.tokens) (.inl hequals) hs value rest hrun
    refine ((hg.value .lowest).and hawaits).bind fun value s₂ h l₂ => gives_pure fun _ => ?_
    obtain ⟨hvalue, hend⟩ := h
    refine ⟨fun lo hle => hvalue.row.lower (by grind), hvalue.settles.of_takes htakes, ?_⟩
    exact fun start hahead _ => hend start hahead
  · refine gives_pure fun hs₁ => ⟨fun lo hle => .nil (by grind) hs₁.last_le_reach, .inl hrests, ?_⟩
    exact fun start _ hawaits => hawaits.of_tokens_eq hrests.tokens

/-- Whether the token was taken on the way from the first stream to the second. -/
abbrev TakenBetween (source : Source) (s : Stream) (t : Token) (s' : Stream) : Prop :=
  (∀ offset, s.Ahead offset → offset ≤ t.span.start) ∧ t.span.start ≤ s'.last ∧
    IsBoundary source t.span.start

private theorem gives_optionalSymbol {source : Source} (text : String) :
    Gives source (optionalSymbol text) s fun found rest =>
      ∀ t, found = some t → TakenBetween source s t rest := by
  refine (gives_nextIs _ 0).bind fun found s₁ _ l₁ => gives_ite (fun _ => ?_) fun _ => ?_
  · refine gives_next.bind fun t s₂ htakes l₂ => gives_pure fun _ => ?_
    rintro u ⟨⟩
    exact ⟨fun offset hahead => (hahead.leads l₁.leads).le htakes.tokens, by grind, htakes.isBoundary⟩
  · exact gives_pure fun _ => by simp

theorem gives_parameterHead (hg : g.ReadsRows) : Gives g.source g.parameterHead s fun n rest =>
    Row g.source .strict s.last [n] rest.last rest.reach ∧ n.span.stop = rest.reach := by
  refine gives_startOfNext.bind fun start s₁ hstart l₁ => ?_
  obtain ⟨hopens, hlast, -, -⟩ := hstart
  refine Gives.after fun _ s₂ l₂ => Gives.after fun _ s₃ l₃ => Gives.after fun _ s₄ l₄ => ?_
  refine Gives.after fun second s₅ l₅ => ?_
  have hahead := hopens.ahead.leads (l₂.trans (l₃.trans (l₄.trans l₅))).leads
  refine (gives_optionalSymbol "&").bind fun ampersand s₆ hampersand l₆ => ?_
  refine (gives_optionalSymbol "...").bind fun points s₇ hpoints l₇ => ?_
  refine (gives_expect _).bind fun name s₈ hname l₈ => ?_
  have hahead' := hahead.leads (l₆.trans l₇).leads
  have hname' : start ≤ name.span.start := hahead'.le hname.1.tokens
  -- Whichever token comes first was taken behind the start and before the value.
  have hfirst : ∀ t, (points.orElse fun _ => ampersand).getD name = t →
      start ≤ t.span.start ∧ t.span.start ≤ s₈.last ∧ IsBoundary g.source t.span.start := by
    rintro t rfl
    cases points with
    | some t =>
      obtain ⟨hle, hend, hb⟩ := hpoints t rfl
      exact ⟨hle start (hahead.leads l₆.leads), Nat.le_trans hend l₈.last_le, hb⟩
    | none =>
      cases ampersand with
      | some t =>
        obtain ⟨hle, hend, hb⟩ := hampersand t rfl
        exact ⟨hle start hahead, Nat.le_trans hend (l₇.trans l₈).last_le, hb⟩
      | none => exact ⟨hname', by simp; grind, hname.1.isBoundary⟩
  obtain ⟨hle, hend, hb⟩ := hfirst _ rfl
  refine (gives_optionalValue hg).bind fun value s₉ hvalue l₉ => gives_close fun hs => ⟨?_, rfl⟩
  have hrow := hvalue.row s₈.last (Nat.le_refl _)
  refine hrow.close hs trivial ?_ ?_ ?_ (hrow.endsBy (hvalue.settles.settled (by grind)) (List.Subset.refl _))
  · split <;> omega
  · split
    · exact hend
    · omega
  · split
    · exact hb
    · exact hopens.isBoundary

end CaretContext.Php.Grammar
