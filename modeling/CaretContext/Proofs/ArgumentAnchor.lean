import CaretContext.Proofs.DynamicMember
import CaretContext.Proofs.Php.PieceOrder
import CaretContext.Proofs.Php.ScanText
import CaretContext.Proofs.Php.StatementNodes

/-!
# Where the argument list of a call opens

The description of a call says where its argument list is to be found: behind the name, the member or the
expression that is called, in front of the parenthesis. In between there are white space and comments, or
text that begins no token. A called expression that lacks its end may have run over the parenthesis, and a
scan for a member in braces goes astray where it ends a line comment later than the parser does.
-/

namespace CaretContext.Php

open MemberScan

namespace Neighbours

variable {source : Source} {taken : List Token} {t u : Token}

private theorem allFit (n : Neighbours source taken t u) :
    AllFit (n.lead ++ n.piece :: (n.mid ++ n.next :: n.last)) := by
  have hfit := allFit_lexemes source.chars
  rw [n.pieces] at hfit
  exact hfit.of_append

private theorem isChain (n : Neighbours source taken t u) :
    (n.lead ++ n.piece :: (n.mid ++ n.next :: n.last)).IsChain Continues := by
  have hchain := (isChain_lexemes source.chars).tail
  rw [List.tail_cons, n.pieces] at hchain
  exact hchain.right_of_append

private theorem not_isCutOff_piece (n : Neighbours source taken t u) :
    ¬ n.piece.IsCutOff (brokenAt? (lexemes source.chars)) := by
  rw [← isLost_iff_isCutOff n.piece_kind, n.piece_kept]
  simp

/-- The pieces from the last token that is taken on, or from the beginning of the text. -/
theorem exists_isChain (n : Neighbours source taken t u) :
    ∃ a : Lexeme, ¬ a.IsCutOff (brokenAt? (lexemes source.chars)) ∧
      (a :: (n.lead ++ n.piece :: (n.mid ++ n.next :: n.last))).IsChain Continues := by
  have hchain := isChain_lexemes source.chars
  rw [n.pieces] at hchain
  rcases List.eq_nil_or_concat n.first with hnil | ⟨front, a, hfirst⟩
  · rw [hnil] at hchain
    refine ⟨_, ?_, hchain⟩
    rintro ⟨start, hstart, -⟩
    cases hstart
  · obtain ⟨⟨kind, hkind⟩, hkept⟩ := n.first_kept a (by simp [hfirst])
    refine ⟨a, ?_, ?_⟩
    · rw [← isLost_iff_isCutOff hkind, hkept]
      simp
    · rw [hfirst, List.concat_eq_append, List.append_assoc, ← List.cons_append] at hchain
      exact hchain.right_of_append

/-- In front of the first token is no lost piece, unless an interpolated expression begins there. -/
theorem lead_ne_token_or_opens (n : Neighbours source taken t u) :
    (∀ piece ∈ n.lead, ∀ kind, piece.kind ≠ .token kind) ∨
      ∃ c rest, pieceChars n.lead = c :: rest ∧ (c = '$' ∨ c = '\x7b') := by
  obtain ⟨a, ha, hchain⟩ := n.exists_isChain
  obtain ⟨offset, hnone⟩ := n.lead_tokenless
  exact (ne_token_or_opens ha hchain hnone).imp_right And.right

/-- In front of the second token is no lost piece, if the first is not text of a string. -/
theorem mid_ne_token (n : Neighbours source taken t u) (ht : t.kind ≠ .stringPart) :
    ∀ piece ∈ n.mid, ∀ kind, piece.kind ≠ .token kind := by
  obtain ⟨offset, hnone⟩ := n.mid_tokenless
  have hchain := n.isChain.right_of_append
  rcases ne_token_or_opens n.not_isCutOff_piece hchain hnone with hkind | ⟨htext, -⟩
  · exact hkind
  · rw [n.piece_kind] at htext
    exact absurd (LexemeKind.token.inj htext) ht

private theorem stop_lt_stop (n : Neighbours source taken t u) (ht : t.kind = .symbol "(") :
    t.span.stop < u.span.stop := by
  have hkind : n.piece.kind = .token (.symbol "(") := by rw [n.piece_kind, ht]
  have hchain : (n.piece :: (n.mid ++ n.next :: n.last)).IsChain Continues := n.isChain.right_of_append
  obtain ⟨b, rest, hb⟩ : ∃ b rest, n.mid ++ [n.next] = b :: rest :=
    List.exists_cons_of_ne_nil (by simp)
  rw [List.append_cons, hb, List.cons_append, List.isChain_cons_cons] at hchain
  obtain ⟨c, cs, hchars⟩ := List.exists_cons_of_ne_nil (hchain.1.opener hkind)
  have hsize : byteSize (pieceChars n.mid) + byteSize n.next.chars =
      byteSize b.chars + byteSize (pieceChars rest) := by
    rw [← byteSize_append, ← byteSize_append, ← pieceChars_cons, ← hb]
    simp [pieceChars]
  have hpos := byteSize_cons_pos c cs
  have hstart := n.next_start
  have hstop := n.next_stop
  rw [hchars] at hsize
  omega

end Neighbours

/-! ### The parenthesis -/

section Opener

variable {source : Source} {span : Span} {taken : List Token} {opener next : Token}

private theorem OpensList.start_le_stop (h : OpensList source span taken opener next)
    (n : Neighbours source taken opener next) :
    lastStop taken ≤ opener.span.start ∧ opener.span.start < opener.span.stop ∧
      opener.span.stop < span.stop := by
  have hlast := n.lastStop_eq
  have hstart := n.piece_start
  have hstop := n.piece_stop
  have hchars : n.piece.chars = ['('] := n.piece_chars h.kind (by decide)
  have hone : byteSize ['('] = 1 := rfl
  have hnext := n.stop_lt_stop h.kind
  have hspan := h.stop
  rw [pieceChars_append, byteSize_append] at hstart
  rw [hchars] at hstop
  omega

end Opener

/-! ### Members in braces -/

section Braced

variable {r : Request} {front : List Token} {op brace : Token} {receiver : Span} {after : List Char}
  {offset stop : Nat}

private theorem scan_opens_ne_ok (hmember : r.member.toList.head? = some '\x7b') {c : Char}
    (hc : c = '$' ∨ c = '\x7b') (cs : List Char) : scan r 0 offset (encode (c :: cs)) ≠ .ok stop := by
  rcases hc with rfl | rfl
  · exact scan_foreign_ne_ok hmember (by decide) cs
  · have hpos : 0 < r.expected.length := by
      unfold Request.expected
      cases r.operator <;> decide
    have hbytes : encode ('\x7b' :: cs) = 123 :: encode cs := rfl
    intro hok
    rw [hbytes] at hok
    obtain ⟨cause, hcause⟩ := scan_brace hpos
    rw [hcause] at hok
    cases hok

private theorem Neighbours.chars_last (n : Neighbours r.source front op brace)
    (hop : op.kind = .symbol r.operator.text)
    (hstands : StandsBehind r.source receiver r.operator r.member (pieceChars n.first)
      (pieceChars n.lead) (pieceChars n.mid) after) :
    pieceChars (n.next :: n.last) = r.member.toList ++ after := by
  have hchars := n.chars_eq
  rw [hstands.chars, n.piece_chars hop (operator_text_ne_quote r.operator)] at hchars
  simpa using hchars.symm

private theorem Neighbours.scan_over_mid (n : Neighbours r.source front op brace)
    (hop : op.kind = .symbol r.operator.text)
    (hstands : StandsBehind r.source receiver r.operator r.member (pieceChars n.first)
      (pieceChars n.lead) (pieceChars n.mid) after)
    (hmid : r.skipComments = true → ¬ EndsAtReturn (r.member.toList ++ after) (pieceChars n.mid))
    {matched : Nat} (h : scan r matched offset (encode (pieceChars (n.mid ++ n.next :: n.last))) = .ok stop) :
    scan r matched (offset + byteSize (pieceChars n.mid)) (encode (r.member.toList ++ after)) = .ok stop := by
  obtain ⟨tail, hmember⟩ := List.head?_eq_some_iff.1 hstands.brace
  have hlast := n.chars_last hop hstands
  have hback : ¬ IsLineEnd (pieceChars (n.next :: n.last)) := by
    rw [hlast, hmember]
    exact id
  have htext : op.kind ≠ .stringPart := by
    rw [hop]
    simp
  rw [← hlast] at hmid ⊢
  exact scan_over_pieces hstands.brace n.allFit.of_append.2 (n.mid_ne_token htext) hback hmid h

private theorem Neighbours.memberEnd_eq (n : Neighbours r.source front op brace)
    (hop : op.kind = .symbol r.operator.text)
    (hstands : StandsBehind r.source receiver r.operator r.member (pieceChars n.first)
      (pieceChars n.lead) (pieceChars n.mid) after)
    (hlead : r.skipComments = true →
      ¬ EndsAtReturn (r.operator.text.toList ++ (pieceChars n.mid ++ (r.member.toList ++ after)))
        (pieceChars n.lead))
    (hmid : r.skipComments = true → ¬ EndsAtReturn (r.member.toList ++ after) (pieceChars n.mid))
    (h : memberEnd r receiver.stop = .ok stop) :
    stop = brace.span.start + byteSize r.member.toList := by
  have hopChars := n.piece_chars hop (operator_text_ne_quote r.operator)
  have hlast := n.chars_last hop hstands
  obtain ⟨tail, hmember⟩ := List.head?_eq_some_iff.1 hstands.brace
  rcases hstands.receiver with hreceiver | hreceiver
  · have hfrom : pieceChars (n.piece :: (n.mid ++ n.next :: n.last)) =
        r.operator.text.toList ++ (pieceChars n.mid ++ (r.member.toList ++ after)) := by
      rw [pieceChars_cons, pieceChars_append, hlast, hopChars]
    have hchars : r.source.chars =
        pieceChars n.first ++ pieceChars (n.lead ++ n.piece :: (n.mid ++ n.next :: n.last)) := by
      rw [pieceChars_append, hfrom, hstands.chars]
    rw [memberEnd, hreceiver, drop_bytes hchars] at h
    -- The scan goes up to the operator, over it, and on to the member.
    rcases n.lead_ne_token_or_opens with hkind | ⟨c, rest, hopens, hc⟩
    · have hback : ¬ IsLineEnd (pieceChars (n.piece :: (n.mid ++ n.next :: n.last))) := by
        rw [hfrom]
        exact not_isLineEnd_operator r.operator _
      have hbytes : encode r.member.toList = 123 :: encode tail := by
        rw [hmember]
        rfl
      have hoperator := scan_over_pieces hstands.brace n.allFit hkind hback (by rwa [hfrom]) h
      rw [pieceChars_cons, hopChars, encode_append, ← Request.expected, scan_expected] at hoperator
      have hfound := n.scan_over_mid hop hstands hmid hoperator
      rw [encode_append, scan_member hbytes (Nat.le_refl _), Except.ok.injEq, Request.expected,
        length_encode] at hfound
      rw [← hfound, n.next_start, n.piece_stop, n.piece_start, hopChars, pieceChars_append,
        byteSize_append]
    · rw [pieceChars_append, hopens, List.cons_append] at h
      exact absurd h (scan_opens_ne_ok hstands.brace hc _)
  · -- Behind the operator the scan still looks for it, and the brace is in its way.
    have hchars : r.source.chars =
        (pieceChars n.first ++ (pieceChars n.lead ++ r.operator.text.toList)) ++
          pieceChars (n.mid ++ n.next :: n.last) := by
      rw [pieceChars_append, hlast, hstands.chars]
      simp
    rw [memberEnd, hreceiver, drop_bytes hchars] at h
    have hfound := n.scan_over_mid hop hstands hmid h
    rw [hmember, List.cons_append] at hfound
    exact absurd hfound (scan_opens_ne_ok hstands.brace (.inr rfl) _)

end Braced

/-! ### Anchors -/

-- An unfinished call that is called itself has taken the parenthesis for the rest of its arguments.
example :
    let source := Source.ofString "<?php\nfoo(? (2));\n"
    (resolveInvocation (parse source) source 13 false).toOption =
      some (some ⟨none, .function, ["foo()"], 0, 13⟩) := by
  decide +kernel

end CaretContext.Php
