import CaretContext.Proofs.InnermostCall
import CaretContext.Proofs.Php.StatementNodes

/-!
# The nodes of a parsed text

Whatever the text, its tree is made up as the table of the tree says, and the names in it are the text's own.
What is reported of a call's receivers is therefore written in the text, but for the parentheses that stand
for their arguments.
-/

namespace CaretContext.Php

/-! ### Where nodes occur -/

/-- The roots of a parsed text are statements, no clauses and no members, and below every node stands what
the grammar of the tree allows there. -/
theorem obeysGrammar_parse (source : Source) :
    (∀ root ∈ parse source, root.kind.part = .statement) ∧
      ∀ n ∈ nodesIn (parse source), n.ObeysGrammar :=
  ⟨fun root hroot => (allGrown_parse source root hroot).part,
    fun _ hn => (genuine_of_mem_parse hn).shaped.obeysGrammar⟩

def twoClauses : Source := .ofString "<?php if ($a) \x7b\x7d elseif ($b) foo($c); else \x7b\x7d"

theorem obeysGrammar_parse_twoClauses :
    ∃ n ∈ parse twoClauses, n.label = "If" ∧ n.children.map Node.label = ["Variable", "ElseIf", "Else"] ∧
      n.kind.part = .statement ∧ n.ObeysGrammar := by
  have hnode : (nodeAt? (parse twoClauses) [0]).map (fun n => (n.label, n.children.map Node.label)) =
      some ("If", ["Variable", "ElseIf", "Else"]) := by
    decide +kernel
  obtain ⟨n, hat, hn⟩ := Option.map_eq_some_iff.1 hnode
  obtain ⟨hlabel, hchildren⟩ := Prod.mk.inj hn
  have hroot : n ∈ parse twoClauses := by
    cases hroots : parse twoClauses with
    | nil => simp [hroots, nodeAt?] at hat
    | cons first roots =>
      have hfirst : first = n := by simpa [hroots, nodeAt?, Node.at?] using hat
      simp [hfirst]
  obtain ⟨hroots, hnodes⟩ := obeysGrammar_parse twoClauses
  exact ⟨n, hroot, hlabel, hchildren, hroots n hroot, hnodes n (mem_nodesIn_of_mem hroot)⟩

/-! ### Entries of a call stack -/

/-- Whether the entry is text of the source, with parentheses behind it for every call in it. -/
def IsWritten (source : Source) (entry : String) : Prop :=
  ∃ base count, entry.toList = base ++ (List.replicate count ['(', ')']).flatten ∧ base <:+: source.chars

section Written

variable {source : Source}

private theorem isWritten_of_infix {entry : String} (h : entry.toList <:+: source.chars) :
    IsWritten source entry :=
  ⟨entry.toList, 0, by simp, h⟩

private theorem infix_of_text? {start stop : Nat} {text : String} (h : source.text? ⟨start, stop⟩ = some text) :
    text.toList <:+: source.chars := by
  obtain ⟨before, after, hchars, -⟩ := exists_append_of_text? h
  exact ⟨before, after, by rw [hchars, List.append_assoc]⟩

private theorem IsWritten.called {entry : String} (h : IsWritten source entry) : IsWritten source
    (entry ++ "()") := by
  obtain ⟨base, count, hentry, hbase⟩ := h
  refine ⟨base, count + 1, ?_, hbase⟩
  rw [String.toList_append, hentry, List.replicate_succ', List.flatten_concat, List.append_assoc]
  rfl

private theorem trimBlank_isInfix (cs : List Char) : trimBlank cs <:+: cs := by
  have hfront : cs.dropWhile isBlankChar <:+ cs := List.dropWhile_suffix _
  have hback : trimBlank cs <+: cs.dropWhile isBlankChar := by
    rw [trimBlank, ← List.reverse_suffix, List.reverse_reverse]
    exact List.dropWhile_suffix _
  exact hback.isInfix.trans hfront.isInfix

private theorem exists_text?_of_mem_parse {n : Node} (hn : n ∈ nodesIn (parse source)) :
    ∃ text, source.text? n.span = some text := by
  obtain ⟨hi, stop, hrow⟩ := exists_row_parse source
  have hlaid := hrow.laidOut n hn
  exact Option.isSome_iff_exists.1 (hlaid.start.text?_isSome hlaid.stop hlaid.start_le_stop)

private theorem isWritten_terminalText {n : Node} (hn : n ∈ nodesIn (parse source)) :
    IsWritten source (terminalText source n) := by
  have hspelled := (genuine_of_mem_parse hn).spelled
  rw [IsSpelled] at hspelled
  fun_induction terminalText source n with
  | case1 n name hkind =>
    rw [hkind] at hspelled
    exact isWritten_of_infix (infix_of_text? hspelled)
  | case2 n name hkind =>
    rw [hkind] at hspelled
    exact isWritten_of_infix (infix_of_text? hspelled)
  | case3 n callee arguments hkind ih =>
    have hcallee := mem_nodesIn_of_mem_children hn (c := callee) (by simp [Node.children, Kind.nodes, hkind])
    exact (ih hcallee (genuine_of_mem_parse hcallee).spelled).called
  | case4 n chars hslice =>
    have htext : source.text? n.span = some (String.ofList chars) := by rw [Source.text?, hslice]; rfl
    have hchars := infix_of_text? htext
    rw [String.toList_ofList] at hchars
    refine isWritten_of_infix ?_
    rw [String.toList_ofList]
    exact (trimBlank_isInfix chars).trans hchars
  | case5 n hslice =>
    obtain ⟨text, htext⟩ := exists_text?_of_mem_parse hn
    simp [Source.text?, hslice] at htext

private theorem isWritten_member {lo hi : Nat} {member : Member Node} (h : SpellsMember source lo hi member)
    (hnodes : ∀ m ∈ member.nodes, m ∈ nodesIn (parse source)) : IsWritten source member.text := by
  cases member with
  | named name span => exact isWritten_of_infix (infix_of_text? h.1)
  | «variable» node =>
    obtain ⟨name, hkind⟩ := h
    have hspelled := (genuine_of_mem_parse (hnodes node (by simp [Member.nodes]))).spelled
    rw [IsSpelled, hkind] at hspelled
    rw [Member.text, hkind]
    exact isWritten_of_infix (infix_of_text? hspelled)
  | expression text node =>
    obtain ⟨start, stop, -, -, htext⟩ := h
    exact isWritten_of_infix (infix_of_text? htext)

private theorem isWritten_of_mem_callStack {n : Node} {entry : String} (hn : n ∈ nodesIn (parse source))
    (hentry : entry ∈ callStack source n) : IsWritten source entry := by
  have hspelled := (genuine_of_mem_parse hn).spelled
  rw [IsSpelled] at hspelled
  have hchild : ∀ c ∈ n.kind.nodes, c ∈ nodesIn (parse source) :=
    fun c hc => mem_nodesIn_of_mem_children hn (by simp [Node.children, hc])
  fun_induction callStack source n with
  | case1 n receiver operator member arguments hkind ih =>
    rw [hkind] at hspelled hchild
    simp only [Kind.nodes, List.mem_cons, List.mem_append] at hchild
    have hreceiver := hchild receiver (.inl rfl)
    rcases List.mem_append.1 hentry with hentry | hentry
    · refine ih hreceiver hentry (genuine_of_mem_parse hreceiver).spelled fun c hc => ?_
      exact mem_nodesIn_of_mem_children hreceiver (by simp [Node.children, hc])
    · obtain rfl := List.mem_singleton.1 hentry
      exact (isWritten_member hspelled fun m hm => hchild m (.inr (.inl hm))).called
  | case2 n receiver operator member hkind ih =>
    rw [hkind] at hspelled hchild
    simp only [Kind.nodes, List.mem_cons] at hchild
    have hreceiver := hchild receiver (.inl rfl)
    rcases List.mem_append.1 hentry with hentry | hentry
    · refine ih hreceiver hentry (genuine_of_mem_parse hreceiver).spelled fun c hc => ?_
      exact mem_nodesIn_of_mem_children hreceiver (by simp [Node.children, hc])
    · obtain rfl := List.mem_singleton.1 hentry
      exact isWritten_member hspelled fun m hm => hchild m (.inr hm)
  | case3 n owner property hkind =>
    rw [hkind] at hspelled
    obtain ⟨text, htext, hsuffix⟩ := hspelled
    rw [List.mem_singleton.1 hentry]
    have hproperty : property.toList <:+ ("$" ++ property).toList := by
      rw [String.toList_append]
      exact List.suffix_append _ _
    exact isWritten_of_infix ((hproperty.trans hsuffix).isInfix.trans (infix_of_text? htext))
  | case4 n =>
    obtain rfl := List.mem_singleton.1 hentry
    exact isWritten_terminalText hn

end Written

/-! ### Names -/

/-- Variables, names, members and properties of a parsed text are spelled as the text spells them, so what is
reported of the receivers of a call is written there. -/
theorem isSpelled_parse (source : Source) :
    (∀ n ∈ nodesIn (parse source), IsSpelled source n) ∧
      ∀ offset skipComments invocation,
        resolveInvocation (parse source) source offset skipComments = .ok (some invocation) →
        ∀ entry ∈ invocation.callStack, IsWritten source entry := by
  refine ⟨fun n hn => (genuine_of_mem_parse hn).spelled, ?_⟩
  intro offset skipComments invocation hresult entry hentry
  obtain ⟨call, hfound, hcall⟩ := resolveInvocation_ok hresult
  have hmem := mem_of_innermostCall? hfound
  rcases hcall with ⟨callee, arguments, hkind, hstack, -⟩ | ⟨-, -, -, -, -, hstack, -⟩
  · rw [hstack] at hentry
    obtain rfl := List.mem_singleton.1 hentry
    exact isWritten_terminalText (mem_nodesIn_of_mem_children hmem (by simp [Node.children, Kind.nodes, hkind]))
  · rw [hstack] at hentry
    exact isWritten_of_mem_callStack hmem hentry

/-- A chain over a property of a class, a member in braces and a call without a name yet. -/
def memberChain : Source := .ofString "<?php a()::$b->\x7b$c\x7d()->(1);"

theorem isSpelled_parse_memberChain :
    ∃ invocation n, resolveInvocation (parse memberChain) memberChain 24 true = .ok (some invocation) ∧
      invocation.callStack = ["b", "\x7b$c\x7d()", "()"] ∧
      (∀ entry ∈ invocation.callStack, IsWritten memberChain entry) ∧
      n ∈ nodesIn (parse memberChain) ∧ n.label = "Variable" ∧ n.span = ⟨16, 18⟩ ∧
      IsSpelled memberChain n := by
  have hfound : resolveInvocation (parse memberChain) memberChain 24 true =
      .ok (some ⟨none, .method, ["b", "\x7b$c\x7d()", "()"], 0, 23⟩) :=
    eq_ok_of_toOption (by decide +kernel)
  have hnode : (nodeAt? (parse memberChain) [0, 0, 0, 1]).map (fun n => (n.label, n.span)) =
      some ("Variable", ⟨16, 18⟩) := by
    decide +kernel
  obtain ⟨hnames, hstack⟩ := isSpelled_parse memberChain
  obtain ⟨n, hat, hn⟩ := Option.map_eq_some_iff.1 hnode
  obtain ⟨hlabel, hspan⟩ := Prod.mk.inj hn
  have hmem := mem_nodesIn.2 ⟨_, hat⟩
  exact ⟨_, n, hfound, rfl, hstack 24 true _ hfound, hmem, hlabel, hspan, hnames n hmem⟩

end CaretContext.Php
