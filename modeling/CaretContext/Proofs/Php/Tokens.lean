import CaretContext.Php.Lexeme
import CaretContext.Proofs.Boundary

/-!
# Where tokens stand

The tokens of a source stand one after the other, each between two character boundaries and over the
text it was read from. Between two tokens there is only text that gives none.
-/

namespace CaretContext.Php

def Item.token? : Item → Option Token
  | .token t => some t
  | .fault _ => none

def tokensIn (items : List Item) : List Token := items.filterMap Item.token?

def tokensOf (source : Source) : List Token := tokensIn (itemsOf source)

def pieceChars (pieces : List Lexeme) : List Char := pieces.flatMap Lexeme.chars

/-- The token that a piece at the offset gives, if it gives one. -/
def Lexeme.token? (broken : Option Nat) (offset : Nat) (piece : Lexeme) : Option Token :=
  match piece.kind with
  | .token kind =>
    if piece.isLost broken then none
    else some ⟨kind, String.ofList piece.chars, ⟨offset, offset + byteSize piece.chars⟩⟩
  | _ => none

@[simp] theorem tokensIn_nil : tokensIn [] = [] := rfl

@[simp] theorem tokensIn_token (token : Token) (items : List Item) :
    tokensIn (.token token :: items) = token :: tokensIn items := rfl

@[simp] theorem tokensIn_fault (fault : Fault) (items : List Item) :
    tokensIn (.fault fault :: items) = tokensIn items := rfl

@[simp] theorem tokensIn_append (as bs : List Item) :
    tokensIn (as ++ bs) = tokensIn as ++ tokensIn bs := List.filterMap_append

@[simp] theorem pieceChars_cons (piece : Lexeme) (pieces : List Lexeme) :
    pieceChars (piece :: pieces) = piece.chars ++ pieceChars pieces := List.flatMap_cons

@[simp] theorem pieceChars_append (as bs : List Lexeme) :
    pieceChars (as ++ bs) = pieceChars as ++ pieceChars bs := List.flatMap_append

theorem tokensIn_placeItems_cons (broken : Option Nat) (offset : Nat) (piece : Lexeme)
    (pieces : List Lexeme) :
    tokensIn (placeItems broken offset (piece :: pieces)) =
      (piece.token? broken offset).toList ++
        tokensIn (placeItems broken (offset + byteSize piece.chars) pieces) := by
  rw [placeItems, Lexeme.token?]
  cases piece.kind with
  | token kind => by_cases hlost : piece.isLost broken = true <;> simp [hlost]
  | gap => rfl
  | fault fault => rfl

theorem Lexeme.token?_eq_some {broken : Option Nat} {offset : Nat} {piece : Lexeme} {t : Token}
    (h : piece.token? broken offset = some t) :
    piece.kind = .token t.kind ∧ t.text = String.ofList piece.chars ∧
      t.span = ⟨offset, offset + byteSize piece.chars⟩ := by
  unfold Lexeme.token? at h
  split at h
  · split at h
    · simp at h
    · simp only [Option.some.injEq] at h
      subst h
      exact ⟨‹_›, rfl, rfl⟩
  · simp at h

/-- Where the tokens are split, the pieces are: those in front give the tokens in front, and those
behind give the tokens behind. -/
theorem exists_piece_of_tokensIn {broken : Option Nat} {offset : Nat} {pieces : List Lexeme}
    {before after : List Token} {t : Token}
    (h : tokensIn (placeItems broken offset pieces) = before ++ t :: after) :
    ∃ front piece back, pieces = front ++ piece :: back ∧
      tokensIn (placeItems broken offset front) = before ∧
      piece.token? broken (offset + byteSize (pieceChars front)) = some t ∧
      tokensIn (placeItems broken t.span.stop back) = after := by
  induction pieces generalizing offset before with
  | nil => simp [placeItems] at h
  | cons piece pieces ih =>
    rw [tokensIn_placeItems_cons] at h
    cases hfirst : piece.token? broken offset with
    | none =>
      rw [hfirst, Option.toList_none, List.nil_append] at h
      obtain ⟨front, found, back, rfl, hfront, hfound, hback⟩ := ih h
      refine ⟨piece :: front, found, back, rfl, ?_, ?_, hback⟩
      · rw [tokensIn_placeItems_cons, hfirst, hfront]
        rfl
      · rw [pieceChars_cons, byteSize_append, ← Nat.add_assoc]
        exact hfound
    | some first =>
      rw [hfirst, Option.toList_some, List.singleton_append] at h
      cases before with
      | nil =>
        obtain ⟨rfl, hrest⟩ := List.cons.inj h
        obtain ⟨-, -, hspan⟩ := Lexeme.token?_eq_some hfirst
        exact ⟨[], piece, pieces, rfl, rfl, hfirst, by rw [hspan]; exact hrest⟩
      | cons u before =>
        obtain ⟨rfl, hrest⟩ := List.cons.inj h
        obtain ⟨front, found, back, rfl, hfront, hfound, hback⟩ := ih hrest
        refine ⟨piece :: front, found, back, rfl, ?_, ?_, hback⟩
        · rw [tokensIn_placeItems_cons, hfirst, hfront]
          rfl
        · rw [pieceChars_cons, byteSize_append, ← Nat.add_assoc]
          exact hfound

private theorem le_start_of_mem_tokensIn {broken : Option Nat} {offset : Nat} {pieces : List Lexeme}
    {t : Token} (h : t ∈ tokensIn (placeItems broken offset pieces)) :
    offset ≤ t.span.start ∧ t.span.start ≤ t.span.stop := by
  obtain ⟨before, after, hsplit⟩ := List.append_of_mem h
  obtain ⟨front, piece, back, -, -, hpiece, -⟩ := exists_piece_of_tokensIn hsplit
  obtain ⟨-, -, hspan⟩ := Lexeme.token?_eq_some hpiece
  rw [hspan]
  exact ⟨Nat.le_add_right _ _, Nat.le_add_right _ _⟩

private theorem pairwise_tokensIn (broken : Option Nat) (offset : Nat) (pieces : List Lexeme) :
    (tokensIn (placeItems broken offset pieces)).Pairwise
      (fun t u => t.span.stop ≤ u.span.start) := by
  induction pieces generalizing offset with
  | nil => exact .nil
  | cons piece pieces ih =>
    rw [tokensIn_placeItems_cons]
    cases hfirst : piece.token? broken offset with
    | none => exact ih _
    | some first =>
      rw [Option.toList_some, List.singleton_append]
      refine .cons (fun u hu => ?_) (ih _)
      obtain ⟨-, -, hspan⟩ := Lexeme.token?_eq_some hfirst
      rw [hspan]
      exact (le_start_of_mem_tokensIn hu).1

variable {source : Source} {t : Token}

theorem pairwise_tokensOf (source : Source) :
    (tokensOf source).Pairwise (fun t u => t.span.stop ≤ u.span.start) :=
  pairwise_tokensIn _ _ _

theorem start_le_stop_of_mem_tokensOf (h : t ∈ tokensOf source) : t.span.start ≤ t.span.stop :=
  (le_start_of_mem_tokensIn h).2

private theorem exists_chars_of_mem_tokensOf (h : t ∈ tokensOf source) :
    ∃ before chars after, source.chars = before ++ chars ++ after ∧ t.text = String.ofList chars ∧
      byteSize before = t.span.start ∧ byteSize before + byteSize chars = t.span.stop := by
  obtain ⟨before, after, hsplit⟩ := List.append_of_mem h
  obtain ⟨front, piece, back, hpieces, -, hpiece, -⟩ := exists_piece_of_tokensIn hsplit
  obtain ⟨-, htext, hspan⟩ := Lexeme.token?_eq_some hpiece
  have hchars : source.chars = pieceChars front ++ piece.chars ++ pieceChars back := by
    rw [← flatMap_lexemes source.chars, hpieces, ← pieceChars, pieceChars_append, pieceChars_cons,
      List.append_assoc]
  refine ⟨_, _, _, hchars, htext, ?_, ?_⟩
  · rw [hspan, Nat.zero_add]
  · rw [hspan, Nat.zero_add]

theorem text?_of_mem_tokensOf (h : t ∈ tokensOf source) : source.text? t.span = some t.text := by
  obtain ⟨before, chars, after, hchars, htext, hstart, hstop⟩ := exists_chars_of_mem_tokensOf h
  have hcut := text?_of_append hchars
  rw [hstop, hstart] at hcut
  rw [htext]
  exact hcut

theorem isBoundary_start (h : t ∈ tokensOf source) : IsBoundary source t.span.start := by
  obtain ⟨before, chars, after, hchars, -, hstart, -⟩ := exists_chars_of_mem_tokensOf h
  exact ⟨before, chars ++ after, by rw [hchars, List.append_assoc], hstart⟩

theorem isBoundary_stop (h : t ∈ tokensOf source) : IsBoundary source t.span.stop := by
  obtain ⟨before, chars, after, hchars, -, -, hstop⟩ := exists_chars_of_mem_tokensOf h
  exact ⟨before ++ chars, after, hchars, by rw [byteSize_append, hstop]⟩

/-- The end of the last of the tokens, and the beginning of the text if there is none. -/
def lastStop (tokens : List Token) : Nat := (tokens.getLast?.map (·.span.stop)).getD 0

@[simp] theorem lastStop_concat (tokens : List Token) (t : Token) :
    lastStop (tokens ++ [t]) = t.span.stop := by
  simp [lastStop]

/-- Behind the last token of some pieces stand only pieces that give none. -/
theorem exists_pieces_after_lastStop (broken : Option Nat) (pieces : List Lexeme) :
    ∃ front back, pieces = front ++ back ∧
      lastStop (tokensIn (placeItems broken 0 pieces)) = byteSize (pieceChars front) ∧
      (∀ piece ∈ front.getLast?, ∃ offset t, piece.token? broken offset = some t) ∧
      tokensIn (placeItems broken (byteSize (pieceChars front)) back) = [] := by
  rcases List.eq_nil_or_concat (tokensIn (placeItems broken 0 pieces)) with hnil | ⟨taken, t, hlast⟩
  · exact ⟨[], pieces, rfl, by rw [hnil]; rfl, by simp, hnil⟩
  · rw [List.concat_eq_append] at hlast
    obtain ⟨front, piece, back, rfl, -, hpiece, hback⟩ := exists_piece_of_tokensIn hlast
    obtain ⟨-, -, hspan⟩ := Lexeme.token?_eq_some hpiece
    have hstop : t.span.stop = byteSize (pieceChars (front ++ [piece])) := by
      rw [hspan, Nat.zero_add, pieceChars_append, byteSize_append]
      simp [pieceChars]
    refine ⟨front ++ [piece], back, by simp, ?_, ?_, ?_⟩
    · rw [hlast, lastStop_concat, hstop]
    · intro last hmem
      obtain rfl : piece = last := by simpa using hmem
      exact ⟨_, t, hpiece⟩
    · rw [← hstop]
      exact hback

theorem Lexeme.isLost_of_token? {broken : Option Nat} {offset : Nat} {piece : Lexeme} {t : Token}
    (h : piece.token? broken offset = some t) : piece.isLost broken = false := by
  have hkind := (Lexeme.token?_eq_some h).1
  cases hlost : piece.isLost broken with
  | false => rfl
  | true => simp [Lexeme.token?, hkind, hlost] at h

/-- Where pieces give no token, every token among them is lost. -/
theorem isLost_of_tokensIn_eq_nil {broken : Option Nat} {offset : Nat} {pieces : List Lexeme}
    {piece : Lexeme} {kind : TokenKind} (h : tokensIn (placeItems broken offset pieces) = [])
    (hpiece : piece ∈ pieces) (hkind : piece.kind = .token kind) : piece.isLost broken = true := by
  induction pieces generalizing offset with
  | nil => simp at hpiece
  | cons first pieces ih =>
    rw [tokensIn_placeItems_cons, List.append_eq_nil_iff] at h
    rcases List.mem_cons.1 hpiece with rfl | hpiece
    · simpa [Lexeme.token?, hkind] using h.1
    · exact ih h.2 hpiece

theorem stop_le_lastStop {taken rest : List Token}
    (h : tokensOf source = taken ++ rest) (ht : t ∈ taken) : t.span.stop ≤ lastStop taken := by
  rcases List.eq_nil_or_concat taken with rfl | ⟨front, u, rfl⟩
  · simp at ht
  · simp only [List.concat_eq_append, lastStop_concat, List.mem_append, List.mem_singleton] at h ht ⊢
    have hsorted := pairwise_tokensOf source
    have hu : u ∈ tokensOf source := by simp [h]
    have hspan := start_le_stop_of_mem_tokensOf hu
    rw [h, List.pairwise_append, List.pairwise_append] at hsorted
    rcases ht with ht | rfl
    · have hle := hsorted.1.2.2 t ht u (by simp)
      omega
    · exact Nat.le_refl _

end CaretContext.Php
