import CaretContext.Proofs.InnermostCall
import CaretContext.Proofs.Php.GapText
import CaretContext.Proofs.Php.Neighbours
import CaretContext.Proofs.Php.Program

/-!
# Dynamic members in their own text

A call with a member in braces is looked up in the text it was parsed from. The operator and the member
stand there behind the receiver, with gaps in front of them. The lookup fails where the scan does not
skip these gaps as the parser does, and where a receiver without its end has run over the operator.
-/

namespace CaretContext.Php

open MemberScan

/-- Whether all of the text is read as tokens and gaps. -/
def IsFaultless (source : Source) : Prop :=
  ∀ piece ∈ lexemes source.chars, ∀ fault, piece.kind ≠ .fault fault

/-- How a member in braces stands to its receiver: the operator behind one gap and the member behind
another. A receiver that lacks its end has run over the operator. -/
structure StandsBehind (source : Source) (receiver : Span) (operator : AccessOperator) (member : String)
    (before gap gap' after : List Char) : Prop where
  chars : source.chars =
    before ++ (gap ++ (operator.text.toList ++ (gap' ++ (member.toList ++ after))))
  receiver : receiver.stop = byteSize before ∨
    receiver.stop = byteSize (before ++ (gap ++ operator.text.toList))
  brace : member.toList.head? = some '\x7b'
  gap : IsFaultless source → IsPlain gap → IsGap (encode gap)
  gap' : IsFaultless source → IsPlain gap' → IsGap (encode gap')

private theorem IsFaultless.brokenAt? {source : Source} (h : IsFaultless source) :
    brokenAt? (lexemes source.chars) = none := by
  have hnone : (lexemes source.chars).find? (·.kind = .fault .interruption) = none := by
    rw [List.find?_eq_none]
    intro piece hpiece
    simpa using h piece hpiece .interruption
  rw [Php.brokenAt?, hnone]
  rfl

private theorem IsFaultless.kind_eq_gap {source : Source} (h : IsFaultless source)
    {front pieces back : List Lexeme}
    (hpieces : lexemes source.chars = front ++ (pieces ++ back)) (hnone : IsTokenless source pieces) :
    ∀ piece ∈ pieces, piece.kind = .gap := by
  intro piece hpiece
  obtain ⟨offset, htokens⟩ := hnone
  rw [h.brokenAt?] at htokens
  cases hkind : piece.kind with
  | token kind =>
    have hlost := isLost_of_tokensIn_eq_nil htokens hpiece hkind
    simp [Lexeme.isLost] at hlost
  | gap => rfl
  | fault fault => exact absurd hkind (h piece (by simp [hpieces, hpiece]) fault)

private theorem isGap_between {source : Source} {front pieces back : List Lexeme}
    (hpieces : lexemes source.chars = front ++ (pieces ++ back)) (hnone : IsTokenless source pieces)
    (hback : ¬ IsLineEnd (pieceChars back)) (hfaultless : IsFaultless source)
    (hplain : IsPlain (pieceChars pieces)) : IsGap (encode (pieceChars pieces)) := by
  have hfit := allFit_lexemes source.chars
  rw [hpieces] at hfit
  exact isGap_of_allFit hfit.of_append (hfaultless.kind_eq_gap hpieces hnone) hplain hback

theorem operator_text_ne_quote (operator : AccessOperator) : operator.text ≠ "\"" := by
  cases operator <;> decide

theorem not_isLineEnd_operator (operator : AccessOperator) (after : List Char) :
    ¬ IsLineEnd (operator.text.toList ++ after) := by
  cases operator <;> exact id

/-- The pieces around an operator and the brace that follows it say how the member stands. -/
theorem Neighbours.exists_standsBehind {source : Source} {taken : List Token} {op brace : Token}
    (n : Neighbours source taken op brace) {receiver : Span} {operator : AccessOperator} {member : String}
    {stop : Nat} (hop : op.kind = .symbol operator.text) (hbrace : brace.kind = .symbol "\x7b")
    (hreceiver : receiver.stop = lastStop taken ∨ receiver.stop = op.span.stop)
    (hstop : brace.span.stop ≤ stop) (htext : source.text? ⟨brace.span.start, stop⟩ = some member) :
    ∃ after, StandsBehind source receiver operator member (pieceChars n.first) (pieceChars n.lead)
      (pieceChars n.mid) after := by
  have hopChars := n.piece_chars hop (operator_text_ne_quote operator)
  have hbraceChars : n.next.chars = ['\x7b'] := n.next_chars hbrace (by decide)
  have hsource : source.chars = (pieceChars n.first ++ (pieceChars n.lead ++ (operator.text.toList ++
      pieceChars n.mid))) ++ ('\x7b' :: pieceChars n.last) := by
    rw [n.chars_eq, hopChars, hbraceChars]
    simp
  have hopStop : op.span.stop =
      byteSize (pieceChars n.first ++ (pieceChars n.lead ++ operator.text.toList)) := by
    rw [n.piece_stop, n.piece_start, hopChars, pieceChars_append, ← byteSize_append, List.append_assoc]
  have hbraceStart : brace.span.start = byteSize (pieceChars n.first ++ (pieceChars n.lead ++
      (operator.text.toList ++ pieceChars n.mid))) := by
    rw [n.next_start, hopStop, ← byteSize_append]
    simp
  rw [hbraceStart] at htext
  obtain ⟨after, hafter, hsize⟩ := append_of_text? hsource htext
  have hmember : member.toList.head? = some '\x7b' := by
    cases hcs : member.toList with
    | nil =>
      rw [hcs, byteSize] at hsize
      have hbraceStop := n.next_stop
      rw [hbraceChars, hbraceStart] at hbraceStop
      have hone : byteSize ['\x7b'] = 1 := rfl
      omega
    | cons c cs =>
      rw [hcs, List.cons_append, List.cons.injEq] at hafter
      rw [List.head?_cons, hafter.1]
  have hmid : lexemes source.chars =
      (n.first ++ (n.lead ++ [n.piece])) ++ (n.mid ++ n.next :: n.last) := by
    rw [n.pieces]
    simp
  refine ⟨after, ?_, ?_, hmember, ?_, ?_⟩
  · rw [hsource, hafter]
    simp
  · rwa [n.lastStop_eq, hopStop] at hreceiver
  · refine isGap_between n.pieces n.lead_tokenless ?_
    rw [pieceChars_cons, hopChars]
    exact not_isLineEnd_operator operator _
  · refine isGap_between hmid n.mid_tokenless ?_
    rw [pieceChars_cons, hbraceChars]
    exact id

private theorem Follows.exists_standsBehind {source : Source} {receiver : Span} {operator : AccessOperator}
    {member : String} (h : Follows source receiver operator member) :
    ∃ before gap gap' after, StandsBehind source receiver operator member before gap gap' after := by
  obtain ⟨taken, op, brace, rest, stop, htokens, hop, hbrace, hreceiver, hstop, htext⟩ := h
  obtain ⟨n⟩ := nonempty_neighbours htokens
  obtain ⟨after, hstands⟩ := n.exists_standsBehind hop hbrace hreceiver hstop htext
  exact ⟨_, _, _, after, hstands⟩

/-! ### Looking the member up -/

section Lookup

variable {source : Source} {receiver : Span} {operator : AccessOperator} {member : String}
  {before gap gap' after : List Char}

theorem memberEnd_ok_iff (h : member.toList.head? = some '\x7b') (start stop : Nat) :
    memberEnd ⟨source, operator, member, true⟩ start = .ok stop ↔
      ∃ n, stop = start + n ∧
        Leads (encode member.toList) (encode operator.text.toList) (source.bytes.drop start) n := by
  obtain ⟨tail, hmember⟩ := List.head?_eq_some_iff.1 h
  have hbytes : encode member.toList = 123 :: encode tail := by
    rw [hmember]
    rfl
  exact memberEnd_eq_ok_iff (r := ⟨source, operator, member, true⟩) rfl hbytes start

private theorem memberEnd_error_iff (h : member.toList.head? = some '\x7b') (start : Nat) :
    (∃ cause, memberEnd ⟨source, operator, member, true⟩ start = .error cause) ↔
      ∀ n, ¬ Leads (encode member.toList) (encode operator.text.toList) (source.bytes.drop start) n := by
  have hok : ∀ stop, memberEnd ⟨source, operator, member, true⟩ start = .ok stop ↔ _ :=
    fun stop => memberEnd_ok_iff h start stop
  cases hend : memberEnd ⟨source, operator, member, true⟩ start with
  | ok stop =>
    obtain ⟨n, -, hleads⟩ := (hok stop).1 hend
    simp only [reduceCtorEq, exists_false, false_iff]
    exact fun hnone => hnone n hleads
  | error cause =>
    simp only [Except.error.injEq, exists_eq', true_iff]
    intro n hleads
    have hfound := (hok (start + n)).2 ⟨n, rfl, hleads⟩
    simp [hend] at hfound

private theorem StandsBehind.memberEnd_eq_ok
    (h : StandsBehind source receiver operator member before gap gap' after)
    (hreceiver : receiver.stop = byteSize before) (hgap : IsGap (encode gap))
    (hgap' : IsGap (encode gap')) :
    memberEnd ⟨source, operator, member, true⟩ receiver.stop =
      .ok (byteSize (before ++ (gap ++ (operator.text.toList ++ (gap' ++ member.toList))))) := by
  have hdrop := drop_bytes h.chars
  have hleads := Leads.of_gaps hgap hgap' (encode member.toList) (encode operator.text.toList)
    (encode after)
  rw [memberEnd_ok_iff h.brace, hreceiver]
  refine ⟨_, ?_, by simpa only [hdrop, encode_append] using hleads⟩
  simp only [byteSize_append, length_encode]

private theorem StandsBehind.memberEnd_eq_error
    (h : StandsBehind source receiver operator member before gap gap' after)
    (hreceiver : receiver.stop = byteSize (before ++ (gap ++ operator.text.toList)))
    (hgap' : IsGap (encode gap')) :
    ∃ cause, memberEnd ⟨source, operator, member, true⟩ receiver.stop = .error cause := by
  obtain ⟨tail, hmember⟩ := List.head?_eq_some_iff.1 h.brace
  have hchars : source.chars = (before ++ (gap ++ operator.text.toList)) ++
      (gap' ++ (member.toList ++ after)) := by
    simp [h.chars]
  have hpos : 0 < (encode operator.text.toList).length := by cases operator <;> decide
  have hbytes : encode (gap' ++ (member.toList ++ after)) =
      encode gap' ++ 123 :: encode (tail ++ after) := by
    rw [hmember, encode_append]
    rfl
  rw [hreceiver, memberEnd, drop_bytes hchars, hbytes,
    scan_gap (r := ⟨source, operator, member, true⟩) rfl hgap']
  exact scan_brace hpos

end Lookup

private theorem exists_standsBehind_of_innermostCall? {offset : Nat} {call receiver value : Node}
    {operator : AccessOperator} {text : String} {arguments : List Node} {source : Source}
    (hcall : innermostCall? (parse source) offset = some call)
    (hkind : call.kind = .methodCall receiver operator (.expression text value) arguments) :
    ∃ before gap gap' after,
      StandsBehind source receiver.span operator text before gap gap' after := by
  obtain ⟨hi, stop, hrow⟩ := exists_row_parse source
  have hbacked := hrow.backed call (mem_of_innermostCall? hcall)
  rw [hkind] at hbacked
  exact Follows.exists_standsBehind hbacked

/-- A lookup in the text that was parsed fails exactly where the bytes behind the receiver do not lead
to the member. The member does stand behind the receiver: it is found at its own place where the scan
skips the gaps around the operator and the receiver ends before it, and in a faultless text the scan skips
every gap that is plain. A receiver that has run over the operator makes the lookup fail. -/
theorem resolveInvocation_parse (source : Source) (offset : Nat) :
    ((∃ cause, resolveInvocation (parse source) source offset true = .error cause) ↔
      ∃ call receiver operator text value arguments,
        innermostCall? (parse source) offset = some call ∧
        call.kind = .methodCall receiver operator (.expression text value) arguments ∧
        ∀ n, ¬ Leads (encode text.toList) (encode operator.text.toList)
          (source.bytes.drop receiver.span.stop) n) ∧
    ∀ call receiver operator text value arguments,
      innermostCall? (parse source) offset = some call →
      call.kind = .methodCall receiver operator (.expression text value) arguments →
      ∃ before gap gap' after,
        StandsBehind source receiver.span operator text before gap gap' after ∧
        (receiver.span.stop = byteSize before → IsGap (encode gap) → IsGap (encode gap') →
          resolveInvocation (parse source) source offset true =
            .ok (some ⟨none, .method, callStack source call, argumentIndex arguments offset,
              byteSize (before ++ (gap ++ (operator.text.toList ++ (gap' ++ text.toList))))⟩)) ∧
        (receiver.span.stop = byteSize (before ++ (gap ++ operator.text.toList)) →
          IsGap (encode gap') →
          ∃ cause, resolveInvocation (parse source) source offset true = .error cause) := by
  refine ⟨⟨?_, ?_⟩, ?_⟩
  · rintro ⟨cause, herror⟩
    obtain ⟨call, receiver, operator, text, value, arguments, hcall, hkind, hend⟩ :=
      resolveInvocation_error herror
    obtain ⟨before, gap, gap', after, h⟩ := exists_standsBehind_of_innermostCall? hcall hkind
    exact ⟨call, receiver, operator, text, value, arguments, hcall, hkind,
      (memberEnd_error_iff h.brace _).1 ⟨cause, hend⟩⟩
  · rintro ⟨call, receiver, operator, text, value, arguments, hcall, hkind, hnone⟩
    obtain ⟨before, gap, gap', after, h⟩ := exists_standsBehind_of_innermostCall? hcall hkind
    obtain ⟨cause, hend⟩ := (memberEnd_error_iff h.brace _).2 hnone
    rw [resolveInvocation_dynamic hcall hkind, hend]
    exact ⟨cause, rfl⟩
  · intro call receiver operator text value arguments hcall hkind
    obtain ⟨before, gap, gap', after, h⟩ := exists_standsBehind_of_innermostCall? hcall hkind
    refine ⟨before, gap, gap', after, h, fun hstop hgap hgap' => ?_, fun hstop hgap' => ?_⟩
    · rw [resolveInvocation_dynamic hcall hkind, h.memberEnd_eq_ok hstop hgap hgap']
      rfl
    · obtain ⟨cause, hend⟩ := h.memberEnd_eq_error hstop hgap'
      rw [resolveInvocation_dynamic hcall hkind, hend]
      exact ⟨cause, rfl⟩

-- Comments around the operator are skipped, and a line comment may end in a carriage return and a line feed.
example :
    let source := Source.ofString "<?php\n$obj // c\x0d\n ->/**/\x7b$m\x7d(1);"
    (match resolveInvocation (parse source) source 29 true with
      | .ok found => found.map Invocation.parameterListStart
      | .error _ => none) = some 28 := by
  decide +kernel

/-- A call with a vertical tab in front of its operator. -/
def verticalTab : Source := .ofString "<?php\n$obj\x0b->\x7b$m\x7d(1);\n"

theorem resolveInvocation_parse_verticalTab :
    resolveInvocation (parse verticalTab) verticalTab 18 true = .error (.unexpectedToken '\x0b' 10) ∧
    ∃ call receiver operator text value arguments before gap gap' after,
      innermostCall? (parse verticalTab) 18 = some call ∧
      call.kind = .methodCall receiver operator (.expression text value) arguments ∧
      StandsBehind verticalTab receiver.span operator text before gap gap' after ∧
      ∀ n, ¬ Leads (encode text.toList) (encode operator.text.toList)
        (verticalTab.bytes.drop receiver.span.stop) n := by
  have herror : resolveInvocation (parse verticalTab) verticalTab 18 true =
      .error (.unexpectedToken '\x0b' 10) := by
    have hcause : (match resolveInvocation (parse verticalTab) verticalTab 18 true with
        | .error cause => some cause
        | .ok _ => none) = some (.unexpectedToken '\x0b' 10) := by
      decide +kernel
    cases hresult : resolveInvocation (parse verticalTab) verticalTab 18 true with
    | error cause => simpa [hresult] using hcause
    | ok found => simp [hresult] at hcause
  obtain ⟨hiff, hplace⟩ := resolveInvocation_parse verticalTab 18
  obtain ⟨call, receiver, operator, text, value, arguments, hcall, hkind, hnone⟩ := hiff.1 ⟨_, herror⟩
  obtain ⟨before, gap, gap', after, hstands, -⟩ := hplace _ _ _ _ _ _ hcall hkind
  exact ⟨herror, call, receiver, operator, text, value, arguments, before, gap, gap', after, hcall, hkind,
    hstands, hnone⟩

end CaretContext.Php
