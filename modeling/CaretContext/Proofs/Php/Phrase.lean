import CaretContext.Proofs.Php.Endings
import CaretContext.Proofs.Php.Layout

/-!
# Phrases

What the parsers of single nodes and of lists of nodes give, as rows between the streams before and
after. A grammar reads in rows when the expressions and statements it takes as given do.
-/

namespace CaretContext.Php

open TokenParser Grammar

variable {α : Type} {source : Source} {s s' s'' : Stream}

theorem clear_of_reads (hs : s.Reads source) : Clear source s.reach s.last :=
  fun _ ht hlt => hs.stop_le_last ht hlt

/-- Statements in a row. -/
structure StatementRow (source : Source) (lo : Nat) (ns : List Node) (hi stop : Nat) : Prop extends
    Row source .statements lo ns hi stop where
  statements : AreStatements ns

/-- A node read from `s` on, up to where `rest` reaches. -/
structure Phrase (source : Source) (s : Stream) (n : Node) (rest : Stream) : Prop where
  row : Row source .strict s.last [n] rest.last rest.reach
  stop : n.span.stop = rest.reach
  moved : s.reach ≤ rest.last
  ahead : ∀ offset, s.Ahead offset → offset ≤ n.span.start

/-- Whether the stream stands before a token that begins no operand and is left where it is. -/
def IsLeft (level : Level) (s : Stream) : Prop :=
  ∃ t items, s.items = .token t :: items ∧ isLeftAlone level t = true

/-- The node in place of an operand that is missing, where the next token is left alone. -/
structure Missing (level : Level) (s : Stream) (n : Node) (rest : Stream) : Prop where
  node : n = ⟨.expression .other, .empty s.last, []⟩
  rests : s.Rests rest
  left : IsLeft level rest

/-- A node that goes on to the last token taken and ends with it, or with what is reached over. -/
structure Valued (source : Source) (s : Stream) (n : Node) (rest : Stream) : Prop where
  row : Row source .strict s.last [n] rest.last rest.reach
  settles : Settles s [n] rest
  covers : rest.last ≤ n.span.stop

/-- Any number of nodes that do so. -/
structure Gathered (source : Source) (s : Stream) (ns : List Node) (rest : Stream) : Prop where
  row : Row source .strict s.last ns rest.last rest.reach
  settles : Settles s ns rest
  covers : s.Rests rest ∨ ∃ n ∈ ns, rest.last ≤ n.span.stop

/-- Statements in a row that end with what has been read. -/
structure Declared (source : Source) (lo : Nat) (ns : List Node) (rest : Stream) : Prop extends
    StatementRow source lo ns rest.last rest.reach where
  settled : Settled ns rest

/-- Statements in a row that end with what has been read since `s`, if anything. -/
structure Stated (source : Source) (lo : Nat) (s : Stream) (ns : List Node) (rest : Stream) : Prop extends
    StatementRow source lo ns rest.last rest.reach where
  settles : Settles s ns rest

def Collects (source : Source) (nodes : α → List Node) (p : TokenParser α) : Prop :=
  ∀ s, Gives source p s fun value rest => Row source .strict s.last (nodes value) rest.last rest.reach

/-- The parser gives nodes in a row and leaves nothing behind them. -/
def Gathers (source : Source) (nodes : α → List Node) (p : TokenParser α) : Prop :=
  ∀ s, Gives source p s fun value rest => Gathered source s (nodes value) rest

def States (source : Source) (nodes : α → List Node) (p : TokenParser α) : Prop :=
  ∀ s, Gives source p s fun value rest => Stated source s.last s (nodes value) rest

/-- A node that was said beforehand to start at `start`, and for which a token has been taken. -/
structure Started (source : Source) (start : Nat) (s : Stream) (n : Node) (rest : Stream) : Prop where
  row : Row source .strict start [n] rest.last rest.reach
  start : n.span.start = start
  stop : n.span.stop = rest.reach
  moved : s.reach ≤ rest.last

/-- What is asked of the expressions and statements that a grammar takes as given. -/
structure Grammar.ReadsRows (g : Grammar) : Prop where
  expression : ∀ level s, Gives g.source (g.expression level) s fun n rest =>
    Phrase g.source s n rest ∨ Missing level s n rest
  statement : ∀ s, Gives g.source g.statement s fun ns rest => Declared g.source s.last ns rest
  runs : ∀ s n rest, (g.expression .lowest).run s = .done n rest →
    ∃ fuel depth, (expressionAt g.source fuel depth .lowest).run s = .done n rest

/-! ### Rows between streams -/

theorem Row.extend {loose : Looseness} {lo : Nat} {ns : List Node}
    (h : Row source loose lo ns s.last s.reach) (hlater : s.Later s') :
    Row source loose lo ns s'.last s'.reach :=
  h.weaken (Nat.le_refl _) hlater.last_le hlater.reach_le hlater.last_le_reach

theorem Row.lower {loose : Looseness} {lo lo' hi stop : Nat} {ns : List Node}
    (h : Row source loose lo ns hi stop) (hlo : lo' ≤ lo) : Row source loose lo' ns hi stop :=
  h.weaken hlo (Nat.le_refl _) (Nat.le_refl _) h.hi_le_stop

/-- A node that is closed over the row of its children. -/
theorem Row.close {loose : Looseness} {kind : Kind Node} {start lo lo' : Nat} {children : List Node}
    (h : Row source (looseness kind) lo' (kind.nodes ++ children) s.last s.reach) (hs : s.Reads source)
    (hbacked : IsBacked source kind) (hlo : lo ≤ start) (hstart : start ≤ lo')
    (hb : IsBoundary source start) (hends : EndsBy source ⟨kind, ⟨start, s.reach⟩, children⟩ s.last) :
    Row source loose lo [⟨kind, ⟨start, s.reach⟩, children⟩] s.last s.reach :=
  h.node hbacked hlo hstart (Nat.le_refl _) hb hs.isBoundary_reach hends

/-- A node ends with the last of its children if what has been read does. -/
theorem Row.endsBy {loose : Looseness} {kind : Kind Node} {start lo : Nat} {children ns : List Node}
    (h : Row source loose lo (kind.nodes ++ children) s.last s.reach) (hsettled : Settled ns s)
    (hsub : ns ⊆ kind.nodes ++ children) : EndsBy source ⟨kind, ⟨start, s.reach⟩, children⟩ s.last := by
  rcases hsettled with hle | ⟨n, hn, hstop⟩
  · exact .inl hle
  · exact (h.ends n (mem_nodesIn_of_mem (hsub hn))).within (hsub hn) hstop

namespace StatementRow

variable {lo hi stop lo' hi' stop' : Nat} {as bs : List Node}

theorem nil (hlo : lo ≤ hi) (hhi : hi ≤ stop) : StatementRow source lo [] hi stop :=
  ⟨.nil hlo hhi, by simp [AreStatements]⟩

theorem weaken (h : StatementRow source lo as hi stop) (hlo : lo' ≤ lo) (hhi : hi ≤ hi')
    (hstop : stop ≤ stop') (hle : hi' ≤ stop') : StatementRow source lo' as hi' stop' :=
  ⟨h.toRow.weaken hlo hhi hstop hle, h.statements⟩

theorem extend (h : StatementRow source lo as s.last s.reach) (hlater : s.Later s') :
    StatementRow source lo as s'.last s'.reach :=
  h.weaken (Nat.le_refl _) hlater.last_le hlater.reach_le hlater.last_le_reach

theorem lower (h : StatementRow source lo as hi stop) (hlo : lo' ≤ lo) :
    StatementRow source lo' as hi stop :=
  ⟨h.toRow.lower hlo, h.statements⟩

/-- Statements read one after the other. The first ones may run over the next token. -/
theorem append (h : StatementRow source lo as s.last s.reach) (hs : s.Reads source)
    (h' : StatementRow source lo' bs hi stop) (hlo : s.last ≤ lo') (hstop : s.reach ≤ stop) :
    StatementRow source lo (as ++ bs) hi stop := by
  refine ⟨h.toRow.append_of_clear h'.toRow hlo hstop ?_ (.inr ?_), ?_⟩
  · exact (clear_of_reads hs).mono (Nat.le_refl _) hlo
  · exact fun a ha b hb => ⟨h.statements a ha, h'.statements b hb⟩
  · intro n hn
    exact (List.mem_append.1 hn).elim (h.statements n) (h'.statements n)

end StatementRow

namespace Declared

variable {lo lo' : Nat} {ns : List Node}

theorem lower (h : Declared source lo ns s) (hlo : lo' ≤ lo) : Declared source lo' ns s :=
  ⟨h.toStatementRow.lower hlo, h.settled⟩

theorem stated (h : Declared source lo ns s') : Stated source lo s ns s' :=
  ⟨h.toStatementRow, .inr h.settled⟩

/-- A statement with a given start that is closed over its children. -/
theorem close {kind : Kind Node} {start : Nat} {children : List Node}
    (h : Row source (looseness kind) lo (kind.nodes ++ children) s.last s.reach) (hs : s.Reads source)
    (hbacked : IsBacked source kind) (hkind : kind.category = .statement)
    (hb : IsBoundary source start) (hstart : start ≤ lo)
    (hends : EndsBy source ⟨kind, ⟨start, s.reach⟩, children⟩ s.last) :
    Declared source start [⟨kind, ⟨start, s.reach⟩, children⟩] s :=
  ⟨⟨h.close hs hbacked (Nat.le_refl _) hstart hb hends, by simpa [AreStatements] using hkind⟩,
    .inr ⟨_, List.mem_singleton.2 rfl, rfl⟩⟩

end Declared

namespace Phrase

variable {n : Node} {t : Token}

theorem before (h : Phrase source s' n s'') (hlater : s.Later s') : Phrase source s n s'' := by
  have hrow := h.row
  have hmoved := h.moved
  refine ⟨hrow.lower hlater.last_le, h.stop, Nat.le_trans hlater.reach_le hmoved, ?_⟩
  exact fun offset hahead => h.ahead offset (hahead.leads hlater.leads)

theorem of_rests (h : Phrase source s n s') (hrests : s'.Rests s'') : Phrase source s n s'' := by
  obtain ⟨-, hlast, hreach⟩ := hrests
  refine ⟨?_, ?_, ?_, h.ahead⟩
  · rw [hlast, hreach]
    exact h.row
  · rw [hreach]
    exact h.stop
  · rw [hlast]
    exact h.moved

theorem valued (h : Phrase source s n s') : Valued source s n s' := by
  have hle := h.row.hi_le_stop
  exact ⟨h.row, .inr (.inr ⟨n, List.mem_singleton.2 rfl, h.stop⟩), h.stop ▸ hle⟩

/-- A node that starts with the token just taken and is closed over its children. -/
theorem of_word {kind : Kind Node} {children : List Node} (ht : s.Takes source t s')
    (h : Row source (looseness kind) s'.last (kind.nodes ++ children) s''.last s''.reach)
    (hs : s''.Reads source) (hbacked : IsBacked source kind)
    (hends : EndsBy source ⟨kind, ⟨t.span.start, s''.reach⟩, children⟩ s''.last) :
    Phrase source s ⟨kind, ⟨t.span.start, s''.reach⟩, children⟩ s'' := by
  have hle := h.lo_le_hi
  refine ⟨h.close hs hbacked ht.last_le (by grind) ht.isBoundary hends, rfl, by grind, ?_⟩
  exact fun offset hahead => hahead.le ht.tokens

theorem of_token {kind : Kind Node} (hkind : kind.nodes = []) (ht : s.Takes source t s')
    (hs : s'.Reads source) (hbacked : IsBacked source kind) :
    Phrase source s ⟨kind, t.span, []⟩ s' := by
  have hrow : Row source (looseness kind) s'.last (kind.nodes ++ []) s'.last s'.reach := by
    rw [hkind]
    exact .nil (Nat.le_refl _) hs.last_le_reach
  have hphrase := of_word ht hrow hs hbacked (.inl (by grind))
  rw [ht.reach] at hphrase
  exact hphrase

end Phrase

/-- A node that begins with one that has been read, and is closed over it and what follows. -/
theorem Phrase.grow {first : Node} {kind : Kind Node} {children : List Node}
    (hfirst : Phrase source s first s')
    (h : Row source (looseness kind) first.span.start (kind.nodes ++ children) s''.last s''.reach)
    (hlater : s'.Later s'') (hs : s''.Reads source) (hbacked : IsBacked source kind)
    (hends : EndsBy source ⟨kind, ⟨first.span.start, s''.reach⟩, children⟩ s''.last) :
    Phrase source s ⟨kind, ⟨first.span.start, s''.reach⟩, children⟩ s'' := by
  refine ⟨?_, rfl, Nat.le_trans hfirst.moved hlater.last_le, hfirst.ahead⟩
  exact h.close hs hbacked hfirst.row.le_start (Nat.le_refl _) hfirst.row.isBoundary_start hends

/-- A node with a given start that is closed over its children. -/
theorem Started.of_close {kind : Kind Node} {start lo : Nat} {children : List Node}
    (h : Row source (looseness kind) lo (kind.nodes ++ children) s'.last s'.reach) (hs : s'.Reads source)
    (hbacked : IsBacked source kind) (hb : IsBoundary source start) (hstart : start ≤ lo)
    (hmoved : s.reach ≤ s'.last) (hends : EndsBy source ⟨kind, ⟨start, s'.reach⟩, children⟩ s'.last) :
    Started source start s ⟨kind, ⟨start, s'.reach⟩, children⟩ s' :=
  ⟨h.close hs hbacked (Nat.le_refl _) hstart hb hends, rfl, rfl, hmoved⟩

/-- A node that starts with the next token is a phrase. -/
theorem Started.phrase {n : Node} {start : Nat} (h : Started source start s' n s'') (hlater : s.Later s')
    (hlast : s.last ≤ start) (hahead : ∀ offset, s.Ahead offset → offset ≤ start) :
    Phrase source s n s'' := by
  refine ⟨h.row.lower hlast, h.stop, Nat.le_trans hlater.reach_le h.moved, ?_⟩
  rw [h.start]
  exact hahead

theorem Missing.row {level : Level} {n : Node} (h : Missing level s n s') (hs : s.Reads source) :
    Row source .strict s.last [n] s'.last s'.reach := by
  obtain ⟨-, hlast, hreach⟩ := h.rests
  rw [h.node, hlast, hreach]
  have hempty : Row source .strict s.last [] s.last s.last := .nil (Nat.le_refl _) (Nat.le_refl _)
  have hnode : Row source .strict s.last [⟨.expression .other, .empty s.last, []⟩] s.last s.last :=
    hempty.node trivial (Nat.le_refl _) (Nat.le_refl _) (Nat.le_refl _) hs.isBoundary_last
      hs.isBoundary_last (.inl (Nat.le_refl _))
  exact hnode.weaken (Nat.le_refl _) (Nat.le_refl _) hs.last_le_reach hs.last_le_reach

private theorem Missing.valued {level : Level} {n : Node} (h : Missing level s n s') (hs : s.Reads source) :
    Valued source s n s' := by
  refine ⟨h.row hs, .inl h.rests, ?_⟩
  rw [h.node, h.rests.last]
  exact Nat.le_refl _

namespace Valued

variable {n : Node} {t : Token} {kind : Kind Node}

theorem gathered (h : Valued source s n s') : Gathered source s [n] s' :=
  ⟨h.row, h.settles, .inr ⟨n, List.mem_singleton.2 rfl, h.covers⟩⟩

theorem of_takes (ht : s.Takes source t s') (h : Valued source s' n s'') : Valued source s n s'' :=
  ⟨h.row.lower (by grind), h.settles.of_takes ht, h.covers⟩

theorem of_rests (hrests : s.Rests s') (h : Valued source s' n s'') : Valued source s n s'' :=
  ⟨h.row.lower (Nat.le_of_eq hrests.last.symm), h.settles.imp_left hrests.trans, h.covers⟩

end Valued

/-- A node that starts with the token just taken and is closed over what has been gathered behind it. -/
theorem Phrase.of_gathered {kind : Kind Node} {t : Token} {ns : List Node} (ht : s.Takes source t s')
    (h : Gathered source s' ns s'') (hkind : kind.nodes = []) (hloose : looseness kind = .strict)
    (hs : s''.Reads source) (hbacked : IsBacked source kind) :
    Phrase source s ⟨kind, ⟨t.span.start, s''.reach⟩, ns⟩ s'' := by
  have hrow : Row source (looseness kind) s'.last (kind.nodes ++ ns) s''.last s''.reach := by
    rw [hkind, hloose]
    exact h.row
  refine .of_word ht hrow hs hbacked (hrow.endsBy (h.settles.settled ?_) (List.subset_append_right _ _))
  exact Nat.le_of_eq (ht.reach.trans ht.last.symm)

theorem Gathered.rests {ns : List Node} (h : Gathered source s ns s') (hrests : s'.Rests s'') :
    Gathered source s ns s'' := by
  refine ⟨?_, h.settles.passes (.inl hrests), ?_⟩
  · rw [hrests.last, hrests.reach]
    exact h.row
  · rw [hrests.last]
    exact h.covers.imp_left fun hrests' => hrests'.trans hrests

theorem Gathered.push {ns : List Node} {t : Token} {n : Node} {rest : Stream}
    (h : Gathered source s ns s') (ht : s'.Takes source t s'') (hn : Valued source s'' n rest) :
    Gathered source s (ns ++ [n]) rest := by
  refine ⟨h.row.append hn.row (by grind), ?_, .inr ⟨n, by simp, hn.covers⟩⟩
  exact .inr ((hn.settles.settled (by grind)).mono (List.subset_append_right _ _))

theorem Gathered.nil (hrests : s.Rests s') (hs : s'.Reads source) : Gathered source s [] s' :=
  ⟨.nil (Nat.le_of_eq hrests.last.symm) hs.last_le_reach, .inl hrests, .inl hrests⟩

namespace Grammar.ReadsRows

variable {g : Grammar}

theorem value (hg : g.ReadsRows) (level : Level) :
    Gives g.source (g.expression level) s (Valued g.source s) := by
  refine Gives.of_reads fun hs => (hg.expression level s).imp fun n rest _ _ h => ?_
  exact h.elim Phrase.valued fun hmissing => hmissing.valued hs

theorem collects_expression (hg : g.ReadsRows) (level : Level) :
    Collects g.source ([·]) (g.expression level) :=
  fun _ => (hg.value level).imp fun _ _ _ _ h => h.row

/-- A value that is not kept is no end of a statement. -/
theorem awaits_value {mark : Token} {start : Nat} {ns : List Node} (hg : g.ReadsRows)
    (hmark : s.IsBehind g.source mark) (hstart : start ≤ mark.span.start) (hasks : AsksForValue mark s) :
    Gives g.source (g.expression .lowest) s fun _ rest => Awaits g.source start ns rest := by
  refine Gives.of_reads fun hs => Gives.run.imp fun n rest _ _ hrun => ?_
  obtain ⟨fuel, depth, hrun⟩ := hg.runs s n rest hrun
  exact fun taken htaken front u _ _ =>
    .inr ⟨mark, s, fuel, depth, n, rest, hs, hmark, hstart, hasks, hrun, htaken⟩

end Grammar.ReadsRows

/-! ### Lists -/

section Lists

variable {nodes : α → List Node} {element : TokenParser α} {closer : String} {opener : Token}

/-- Whether the node has the elements of the list as its last children. -/
structure Encloses (n : Node) (opener : Token) (ns : List Node) : Prop where
  start : n.span.start ≤ opener.span.start
  elements : ns ⊆ n.children
  before : ∀ c ∈ n.children, c ∈ ns ∨ c.span.stop ≤ opener.span.stop

/-- How a list ends: with its closing bracket, or in front of a token that stands in the way. -/
inductive ListEnd (source : Source) (opener : Token) (closer : String) (ns : List Node) (rest : Stream) : Prop
  | closed (mark : Token) (isBehind : rest.IsBehind source mark) (isCloser : mark.isSymbol closer = true)
      (reach : rest.reach ≤ rest.last)
  | broken (t : Token) (front : ∃ tokens, rest.tokens = t :: tokens) (reach : rest.reach = t.span.stop)
      (overruns : ∀ n, Encloses n opener ns → closer ∈ closers n.kind → n.span.stop = rest.reach →
        Overruns source n)

theorem ListEnd.endsBy {ns : List Node} {n : Node} (h : ListEnd source opener closer ns s)
    (hn : Encloses n opener ns) (hkind : closer ∈ closers n.kind) (hstop : n.span.stop = s.reach) :
    EndsBy source n s.last := by
  cases h with
  | closed _ _ _ hreach => exact .inl (hstop ▸ hreach)
  | broken _ _ _ hoverruns => exact .inr (hoverruns n hn hkind hstop)

/-- An element of a list. If it ends with the closing bracket of that, a node does. -/
structure Filled (source : Source) (closer : String) (s : Stream) (ns : List Node) (rest : Stream) : Prop where
  row : Row source .strict s.last ns rest.last rest.reach
  covers : s.Rests rest ∨ (∃ n ∈ ns, rest.last ≤ n.span.stop) ∨
    ∃ u, rest.IsBehind source u ∧ u.isSymbol closer = false

theorem Gathered.filled {ns : List Node} (h : Gathered source s ns s') : Filled source closer s ns s' :=
  ⟨h.row, h.covers.imp_right .inl⟩

/-- Between turns all elements end by the last token taken, which is a comma or the opener. -/
structure Listed (source : Source) (nodes : α → List Node) (opener : Token) (closer : String)
    (elements : List α) (s : Stream) : Prop where
  row : Row source .strict opener.span.stop (elements.reverse.flatMap nodes) s.last s.last
  reach : s.reach ≤ s.last
  mark : ∃ mark, s.IsBehind source mark ∧ opener.span.start ≤ mark.span.start ∧
    (mark.isSymbol "," = true ∨ mark.isSymbol (openerOf closer) = true)

/-- A list from its opening bracket on. -/
structure Listing (source : Source) (opener : Token) (closer : String) (ns : List Node) (rest : Stream) :
    Prop where
  row : Row source .strict opener.span.stop ns rest.last rest.reach
  ends : ListEnd source opener closer ns rest

/-- Whether the last token taken does not close the list. -/
def AwaitsCloser (source : Source) (opener : Token) (closer : String) (ns : List Node) (s : Stream) : Prop :=
  ∀ n, Encloses n opener ns → ∀ taken, tokensOf source = taken ++ s.tokens →
    LacksCloser source n.span.start n.children closer taken

private theorem AwaitsCloser.of_isBehind {ns : List Node} {u : Token} (h : s.IsBehind source u)
    (hu : u.isSymbol closer = false) : AwaitsCloser source opener closer ns s := by
  rintro n - _ htaken front v rfl hcloser
  rw [h.eq_of_append htaken, hu] at hcloser
  cases hcloser

private theorem AwaitsCloser.of_last_le {ns : List Node} {c : Node} (hs : s.Reads source) (hc : c ∈ ns)
    (hle : s.last ≤ c.span.stop) : AwaitsCloser source opener closer ns s := by
  rintro n hn _ htaken front u rfl -
  have hlast : s.last = u.span.stop := Stream.IsBehind.last_eq ⟨front, by rw [htaken]; simp⟩ hs
  exact .inl ⟨c, hn.elements hc, by omega⟩

theorem isSymbol_eq_false {t : Token} {text text' : String} (h : t.isSymbol text = true)
    (hne : text ≠ text') : t.isSymbol text' = false := by
  have hkind : t.kind = .symbol text := of_decide_eq_true h
  simp [Token.isSymbol, hkind, hne]

namespace Listed

variable {elements : List α}

private theorem exists_mark (h : Listed source nodes opener closer elements s)
    (hcloser : closer ≠ "," ∧ closer ≠ openerOf closer) : ∃ mark, s.IsBehind source mark ∧
      opener.span.start ≤ mark.span.start ∧ mark.isSymbol closer = false ∧
      (mark.isSymbol "," = true ∨ mark.isSymbol (openerOf closer) = true) := by
  obtain ⟨mark, hbehind, hstart, hmark⟩ := h.mark
  refine ⟨mark, hbehind, hstart, ?_, hmark⟩
  exact hmark.elim (isSymbol_eq_false · hcloser.1.symm) (isSymbol_eq_false · hcloser.2.symm)

private theorem of_rests (h : Listed source nodes opener closer elements s) (hrests : s.Rests s') :
    Listed source nodes opener closer elements s' := by
  obtain ⟨mark, hbehind, hmark⟩ := h.mark
  refine ⟨hrests.last ▸ h.row, ?_, mark, hbehind.of_rests hrests, hmark⟩
  rw [hrests.last, hrests.reach]
  exact h.reach

private theorem push {value : α} (h : Listed source nodes opener closer elements s)
    (hvalue : Filled source closer s (nodes value) s') :
    Row source .strict opener.span.stop ((value :: elements).reverse.flatMap nodes) s'.last s'.reach := by
  rw [List.reverse_cons, List.flatMap_append, List.flatMap_singleton]
  exact h.row.append hvalue.row (Nat.le_refl _)

private theorem awaits_push {value : α} (h : Listed source nodes opener closer elements s)
    (hcloser : closer ≠ "," ∧ closer ≠ openerOf closer) (hs : s'.Reads source)
    (hvalue : Filled source closer s (nodes value) s') :
    AwaitsCloser source opener closer ((value :: elements).reverse.flatMap nodes) s' := by
  obtain ⟨mark, hbehind, -, hmark, -⟩ := h.exists_mark hcloser
  rcases hvalue.covers with hrests | ⟨n, hn, hle⟩ | ⟨u, hu, hfalse⟩
  · exact .of_isBehind (hbehind.of_rests hrests) hmark
  · exact .of_last_le hs (subset_flatMap_reverse_cons value elements hn) hle
  · exact .of_isBehind hu hfalse

/-- An element that has failed may have taken any token, but none of the kept ones ends behind the mark. -/
theorem awaits_dropped (h : Listed source nodes opener closer elements s)
    (hcloser : closer ≠ "," ∧ closer ≠ openerOf closer) (hs : s.Reads source) (hlater : s.Later s')
    (hfirst : (∀ t tokens, s.tokens = t :: tokens → t.isSymbol closer = false) ∨
      .fault .interruption ∈ itemsOf source) :
    AwaitsCloser source opener closer (elements.reverse.flatMap nodes) s' := by
  obtain ⟨mark, hbehind, hstart, hmark, hsymbol⟩ := h.exists_mark hcloser
  obtain ⟨mid, hmid⟩ := hlater.leads.tokens_suffix
  have hlast := hbehind.last_eq hs
  obtain ⟨front, hfront⟩ := hbehind
  cases mid with
  | nil => exact .of_isBehind ⟨front, by rw [hfront, ← hmid]; simp⟩ hmark
  | cons first rest =>
    rintro n hn taken htaken - - - -
    have hsame : taken ++ s'.tokens = (front ++ mark :: first :: rest) ++ s'.tokens := by
      rw [← htaken, hfront, ← hmid]
      simp
    refine .inr ⟨front, mark, first, rest, List.append_cancel_right hsame, hsymbol,
      Nat.le_trans hn.start hstart, hfirst.imp_left fun hall => hall first _ hmid.symm, fun c hc => ?_⟩
    have hopener := h.row.lo_le_hi
    rcases hn.before c hc with hc | hle
    · have hstop := h.row.stops c hc
      omega
    · omega

end Listed

abbrev ListedTurn (source : Source) (nodes : α → List Node) (opener : Token) (closer : String) :
    Turn (List α) (List α) → Stream → Prop :=
  Turn.Keeps (Listed source nodes opener closer) fun values rest =>
    Listing source opener closer (values.flatMap nodes) rest

private theorem gives_afterElement {elements : List α} (hstart : opener.span.start ≤ opener.span.stop)
    (h : Row source .strict opener.span.stop (elements.reverse.flatMap nodes) s.last s.reach)
    (hawaits : AwaitsCloser source opener closer (elements.reverse.flatMap nodes) s) :
    Gives source (afterElement closer elements) s (ListedTurn source nodes opener closer) := by
  have hle := h.lo_le_hi
  refine gives_peek.bind fun t s₁ hsees l₁ => gives_ite (fun hcomma => ?_) fun hcomma => ?_
  · refine gives_next.bind fun comma s₂ htakes l₂ => gives_pure fun _ => ?_
    obtain rfl := eq_of_sees hsees htakes
    have hrow : Row source .strict opener.span.stop (elements.reverse.flatMap nodes) s₂.last s₂.last :=
      h.weaken (Nat.le_refl _) (by grind) (by grind) (Nat.le_refl _)
    exact ⟨hrow, by grind, comma, htakes.isBehind, by grind, .inl hcomma⟩
  refine gives_ite (fun hcloser => ?_) fun hcloser => ?_
  · refine gives_next.bind fun mark s₂ htakes l₂ => gives_pure fun _ => ?_
    obtain rfl := eq_of_sees hsees htakes
    exact ⟨h.extend (l₁.trans l₂), .closed mark htakes.isBehind hcloser (by grind)⟩
  · obtain ⟨items, hitems⟩ := hsees.front
    refine Gives.of_reads fun hs₁ => ?_
    refine (gives_reachOver hitems).bind fun _ s₂ hover l₂ => gives_pure fun _ => ?_
    refine ⟨h.extend (l₁.trans l₂), .broken t ?_ hover.reach fun n hn hkind hstop => ?_⟩
    · rw [hover.tokens]
      exact hover.front
    · refine overruns_of_reachesOver hs₁ hover hstop fun taken htaken => ?_
      refine .list hkind ⟨by simpa using hcomma, by simpa using hcloser⟩ (hawaits n hn taken ?_)
      rw [htaken, hsees.rests.tokens]

/-- The elements of a list stand behind its opening bracket, and the list is closed or breaks off. -/
theorem gives_bracketed (closer : String) (nodes : α → List Node) (hopener : s'.Takes source opener s)
    (hsymbol : opener.kind = .symbol (openerOf closer)) (hcloser : closer ≠ "," ∧ closer ≠ openerOf closer)
    (h : ∀ s, Gives source element s fun value rest => Filled source closer s (nodes value) rest) :
    Gives source (bracketed closer element) s fun values rest =>
      Listing source opener closer (values.flatMap nodes) rest := by
  have hstart := hopener.start_le_stop
  have hnone : Listed source nodes opener closer [] s :=
    ⟨.nil (by grind) (Nat.le_refl _), by grind, opener, hopener.isBehind, Nat.le_refl _,
      .inr (by simp [Token.isSymbol, hsymbol])⟩
  refine gives_repeating (Listed source nodes opener closer) hnone fun elements s₁ _ hinv => ?_
  refine ((gives_skipSymbol closer).and (gives_skipSymbol_missing closer)).bind fun found s₂ hskip l₂ => ?_
  obtain ⟨⟨rfl, mark, htakes, hmark⟩ | ⟨rfl, hrests⟩, hfirst⟩ := hskip
  · refine gives_pure fun _ => ⟨?_, .closed mark htakes.isBehind hmark (by grind)⟩
    exact hinv.row.weaken (Nat.le_refl _) l₂.last_le (by grind) l₂.last_le_reach
  have hlisted := hinv.of_rests hrests
  refine Gives.of_reads fun hs₂ => (gives_recover (h s₂)).bind fun value s₃ hvalue l₃ => ?_
  cases value with
  | none =>
    refine gives_afterElement hstart ?_ (hlisted.awaits_dropped hcloser hs₂ l₃ (hfirst rfl))
    exact hlisted.row.weaken (Nat.le_refl _) l₃.last_le (by grind) l₃.last_le_reach
  | some value =>
    have hfilled := hvalue.1 value rfl
    exact Gives.of_reads fun hs₃ =>
      gives_afterElement hstart (hlisted.push hfilled) (hlisted.awaits_push hcloser hs₃ hfilled)

/-- A construct that consists of a word and a list, which is nothing but its children. -/
theorem Phrase.of_listing {kind : Kind Node} {word : Token} {ns : List Node} (hword : s.Takes source word s')
    (hlist : Listing source opener closer ns s'')
    (hopener : word.span.start ≤ opener.span.start) (hlast : s'.last ≤ opener.span.stop)
    (hkind : kind.nodes = []) (hloose : looseness kind = .strict) (hcloser : closer ∈ closers kind)
    (hs : s''.Reads source) (hbacked : IsBacked source kind) :
    Phrase source s ⟨kind, ⟨word.span.start, s''.reach⟩, ns⟩ s'' := by
  refine .of_word hword ?_ hs hbacked (hlist.ends.endsBy ⟨hopener, ?_, fun c hc => .inl ?_⟩ hcloser rfl)
  · rw [hkind, hloose]
    exact hlist.row.lower hlast
  · exact List.subset_append_right _ _
  · rwa [Node.children, hkind] at hc

/-- Between turns all elements end by the last token taken, which is a comma. -/
theorem collects_commaSeparated (ends : Token → Bool) (h : Collects source nodes element) :
    Collects source (·.flatMap nodes) (commaSeparated ends element) := by
  intro s
  refine gives_repeating
    (fun elements s' => Row source .strict s.last (elements.reverse.flatMap nodes) s'.last s'.last)
    (.nil (Nat.le_refl _) (Nat.le_refl _)) fun elements s₁ _ hinv => ?_
  refine Gives.after fun ended s₂ l₂ => gives_ite (fun _ => gives_pure fun _ => ?_) fun _ => ?_
  · exact hinv.weaken (Nat.le_refl _) l₂.last_le (by grind) l₂.last_le_reach
  refine (h s₂).bind fun value s₃ hvalue l₃ => ?_
  have hrow : Row source .strict s.last ((value :: elements).reverse.flatMap nodes) s₃.last s₃.reach := by
    rw [List.reverse_cons, List.flatMap_append, List.flatMap_singleton]
    exact hinv.append hvalue l₂.last_le
  refine (gives_skipSymbol ",").bind fun found s₄ hskip l₄ => ?_
  obtain ⟨rfl, comma, htakes, -⟩ | ⟨rfl, -⟩ := hskip
  · exact gives_pure fun _ => hrow.weaken (Nat.le_refl _) l₄.last_le (by grind) (Nat.le_refl _)
  · exact gives_pure fun _ => hrow.extend l₄

/-- Elements that end with the closing symbol behind them. -/
theorem gives_enclosed (closer : String) (h : Collects source nodes element) :
    Gives source (enclosed closer element) s fun values rest =>
      Row source .strict s.last (values.flatMap nodes) rest.last rest.reach ∧ rest.reach ≤ rest.last := by
  refine (collects_commaSeparated _ h s).bind fun values s₁ hrow l₁ => ?_
  refine (gives_symbol closer).bind fun mark s₂ hmark l₂ => gives_pure fun _ => ?_
  exact ⟨hrow.extend l₂, by grind⟩

end Lists

theorem Collects.singles {p : TokenParser (List Node)} (h : Collects source (·.flatMap ([·])) p) :
    Collects source id p :=
  fun s => (h s).imp fun ns rest _ _ hrow => by simpa using hrow

/-- A list of elements that give several nodes each. -/
theorem Collects.flat {p : TokenParser (List (List Node))} (h : Collects source (·.flatMap id) p) :
    Collects source List.flatten p :=
  fun s => (h s).imp fun ns rest _ _ hrow => by simpa only [List.flatMap_id] using hrow

/-! ### Lists of statements -/

variable {nodes : α → List Node}

theorem Stated.passes {lo : Nat} {ns : List Node} (h : Stated source lo s ns s') (hlater : s'.Later s'')
    (hpasses : s'.Passes s'') : Stated source lo s ns s'' :=
  ⟨h.extend hlater, h.settles.passes hpasses⟩

theorem Declared.passes {lo : Nat} {ns : List Node} (h : Declared source lo ns s) (hlater : s.Later s')
    (hpasses : s.Passes s') : Declared source lo ns s' :=
  ⟨h.extend hlater, h.settled.passes hpasses⟩

private theorem gives_forward_of_passes {p : TokenParser α} {post : α → Stream → Prop}
    (h : Gives source p s post)
    (hpost : ∀ value s' s'', post value s' → s'.Later s'' → s'.Passes s'' → post value s'') :
    Gives source (forward p) s post :=
  (gives_forward h).imp fun value rest _ _ hvalue => by
    obtain ⟨middle, hmiddle, -, -, hlater, hpasses⟩ := hvalue
    exact hpost value middle rest hmiddle hlater hpasses

theorem gives_forward_recover {p : TokenParser α} {post : α → Stream → Prop} (h : Gives source p s post)
    (hpost : ∀ value s' s'', post value s' → s'.Later s'' → s'.Passes s'' → post value s'') :
    Gives source (forward (recover p)) s fun found rest =>
      (∀ value, found = some value → post value rest) ∧ (found = none → s.Passes rest) :=
  gives_forward_of_passes (gives_recover h) fun _ s' s'' h' hlater hpasses =>
    ⟨fun value hvalue => hpost value s' s'' (h'.1 value hvalue) hlater hpasses,
      fun hnone => (h'.2 hnone).trans hpasses⟩

theorem Grammar.ReadsRows.gives_statement {g : Grammar} (hg : g.ReadsRows) :
    Gives g.source (forward g.statement) s fun ns rest => Declared g.source s.last ns rest :=
  gives_forward_of_passes (hg.statement s) fun _ _ _ => Declared.passes

theorem Grammar.ReadsRows.gives_recovered {g : Grammar} (hg : g.ReadsRows) :
    Gives g.source (forward (recover g.statement)) s fun found rest =>
      (∀ ns, found = some ns → Declared g.source s.last ns rest) ∧ (found = none → s.Passes rest) :=
  gives_forward_recover (hg.statement s) fun _ _ _ => Declared.passes

/-- The groups of statements read since `s`, the last one first. -/
abbrev Grouped (source : Source) (s : Stream) (groups : List (List Node)) (s' : Stream) : Prop :=
  Stated source s.last s groups.reverse.flatten s'

theorem Stated.nil (hs : s.Reads source) : Stated source s.last s [] s :=
  ⟨.nil (Nat.le_refl _) hs.last_le_reach, .inl (.refl s)⟩

theorem Stated.append {lo lo' : Nat} {as bs : List Node} (h : Stated source lo s as s') (hs : s'.Reads source)
    (h' : Stated source lo' s' bs s'') (hlo : s'.last ≤ lo') (hreach : s'.reach ≤ s''.reach) :
    Stated source lo s (as ++ bs) s'' :=
  ⟨h.toStatementRow.append hs h'.toStatementRow hlo hreach, h.settles.trans h'.settles⟩

theorem Declared.append {lo lo' : Nat} {as bs : List Node} (h : Declared source lo as s) (hs : s.Reads source)
    (h' : Stated source lo' s bs s') (hlo : s.last ≤ lo') (hreach : s.reach ≤ s'.reach) :
    Declared source lo (as ++ bs) s' :=
  ⟨h.toStatementRow.append hs h'.toStatementRow hlo hreach, h.settled.trans h'.settles⟩

theorem Grouped.push {groups : List (List Node)} {ns : List Node} (h : Grouped source s groups s')
    (hs : s'.Reads source) (hlater : s'.Later s'') (hns : Declared source s'.last ns s'') :
    Grouped source s (ns :: groups) s'' := by
  have hsum := h.append hs hns.stated (Nat.le_refl _) hlater.reach_le
  simpa [Grouped] using hsum

theorem states_manyWhile {statement : TokenParser Node} (test : Token → Bool)
    (h : States source ([·]) statement) : States source id (manyWhile test statement) := by
  intro s
  refine Gives.of_reads fun hs => gives_repeating
    (fun elements s' => Stated source s.last s elements.reverse s') (.nil hs) fun elements s₁ _ hinv => ?_
  refine (gives_nextIs test 0).bind fun found s₂ hrests l₂ => Gives.of_reads fun hs₂ => ?_
  have hlisted := hinv.passes l₂ (.inl hrests)
  refine gives_ite (fun _ => ?_) fun _ => gives_pure fun _ => hlisted
  refine (h s₂).bind fun n s₃ hn l₃ => gives_pure fun _ => ?_
  simp only [Turn.Keeps, List.reverse_cons]
  exact hlisted.append hs₂ hn (Nat.le_refl _) l₃.reach_le

end CaretContext.Php
