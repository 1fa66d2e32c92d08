import CaretContext.Proofs.Php.Pieces

/-!
# Pieces around tokens

Two tokens that follow each other are two pieces of the text. In front of each are pieces that give no
token: gaps, faults, and what is lost of interpolated expressions.
-/

namespace CaretContext.Php

def IsTokenless (source : Source) (pieces : List Lexeme) : Prop :=
  ∃ offset, tokensIn (placeItems (brokenAt? (lexemes source.chars)) offset pieces) = []

/-- The pieces of the text around two tokens that follow each other, behind the tokens that are taken. -/
structure Neighbours (source : Source) (taken : List Token) (t u : Token) where
  /-- The pieces up to the end of the last token that is taken. -/
  first : List Lexeme
  lead : List Lexeme
  piece : Lexeme
  mid : List Lexeme
  next : Lexeme
  last : List Lexeme
  pieces : lexemes source.chars = first ++ (lead ++ piece :: (mid ++ next :: last))
  lastStop_eq : lastStop taken = byteSize (pieceChars first)
  first_kept : ∀ a ∈ first.getLast?,
    (∃ kind, a.kind = .token kind) ∧ a.isLost (brokenAt? (lexemes source.chars)) = false
  lead_tokenless : IsTokenless source lead
  piece_kind : piece.kind = .token t.kind
  piece_kept : piece.isLost (brokenAt? (lexemes source.chars)) = false
  piece_start : t.span.start = byteSize (pieceChars (first ++ lead))
  piece_stop : t.span.stop = t.span.start + byteSize piece.chars
  mid_tokenless : IsTokenless source mid
  next_kind : next.kind = .token u.kind
  next_start : u.span.start = t.span.stop + byteSize (pieceChars mid)
  next_stop : u.span.stop = u.span.start + byteSize next.chars

theorem nonempty_neighbours {source : Source} {taken rest : List Token} {t u : Token}
    (h : tokensOf source = taken ++ t :: u :: rest) : Nonempty (Neighbours source taken t u) := by
  obtain ⟨front, piece, back, hpieces, hfront, hpiece, hback⟩ := exists_piece_of_tokensIn h
  rw [← List.nil_append (u :: rest)] at hback
  obtain ⟨mid, next, last, rfl, hmid, hnext, -⟩ := exists_piece_of_tokensIn hback
  obtain ⟨first, lead, rfl, hlast, hfirst, hlead⟩ :=
    exists_pieces_after_lastStop (brokenAt? (lexemes source.chars)) front
  obtain ⟨hkind, -, hspan⟩ := Lexeme.token?_eq_some hpiece
  obtain ⟨hnextKind, -, hnextSpan⟩ := Lexeme.token?_eq_some hnext
  rw [hfront] at hlast
  refine ⟨⟨first, lead, piece, mid, next, last, by simp [hpieces], hlast, ?_, ⟨_, hlead⟩, hkind,
    Lexeme.isLost_of_token? hpiece, ?_, ?_, ⟨_, hmid⟩, hnextKind, ?_, ?_⟩⟩
  · intro a ha
    obtain ⟨offset, token, htoken⟩ := hfirst a ha
    exact ⟨⟨_, (Lexeme.token?_eq_some htoken).1⟩, Lexeme.isLost_of_token? htoken⟩
  · rw [hspan, Nat.zero_add]
  · rw [hspan]
  · rw [hnextSpan]
  · rw [hnextSpan]

private theorem chars_of_symbol {source : Source} {front back : List Lexeme} {piece : Lexeme} {text : String}
    (hpieces : lexemes source.chars = front ++ piece :: back)
    (hkind : piece.kind = .token (.symbol text)) (htext : text ≠ "\"") : piece.chars = text.toList := by
  have hfit := allFit_lexemes source.chars
  rw [hpieces] at hfit
  have hpiece := hfit.of_append.1
  rw [hkind] at hpiece
  exact hpiece.resolve_left htext

namespace Neighbours

variable {source : Source} {taken : List Token} {t u : Token} {text : String}

theorem piece_chars (n : Neighbours source taken t u) (ht : t.kind = .symbol text) (htext : text ≠ "\"") :
    n.piece.chars = text.toList := by
  have hpieces : lexemes source.chars =
      (n.first ++ n.lead) ++ n.piece :: (n.mid ++ n.next :: n.last) := by
    rw [n.pieces, List.append_assoc]
  exact chars_of_symbol hpieces (by rw [n.piece_kind, ht]) htext

theorem next_chars (n : Neighbours source taken t u) (hu : u.kind = .symbol text) (htext : text ≠ "\"") :
    n.next.chars = text.toList := by
  have hpieces : lexemes source.chars =
      (n.first ++ (n.lead ++ n.piece :: n.mid)) ++ n.next :: n.last := by
    rw [n.pieces]
    simp
  exact chars_of_symbol hpieces (by rw [n.next_kind, hu]) htext

theorem chars_eq (n : Neighbours source taken t u) : source.chars =
    pieceChars n.first ++ (pieceChars n.lead ++ (n.piece.chars ++ (pieceChars n.mid ++
      (n.next.chars ++ pieceChars n.last)))) := by
  rw [← flatMap_lexemes source.chars, ← pieceChars, n.pieces]
  simp

end Neighbours

end CaretContext.Php
