import CaretContext.Proofs.Php.Tokens

/-!
# What pieces of text look like

A piece that is read as a symbol spells it, but for the quote of a string, which a letter may precede.
A variable begins with its dollar sign. A gap is white space, a closed block comment, or a line comment
with the end of its line or of the program behind it. Text that begins no token begins no gap either, and
no operator or brace, unless nothing comes behind it.
-/

namespace CaretContext.Php

def IsLineEnd : List Char → Prop
  | [] => True
  | '\n' :: _ => True
  | '\r' :: _ => True
  | '?' :: '>' :: _ => True
  | _ => False

/-- Whether a line comment goes over the characters. -/
structure IsLine (body : List Char) : Prop where
  lineFeed : '\n' ∉ body
  lineReturn : '\r' ∉ body
  closeTag : ¬ ['?', '>'] <:+: body

/-- Whether the characters are a gap when the others come behind them. -/
inductive IsGapBefore : List Char → List Char → Prop
  | spaces {chars after : List Char} : (∀ c ∈ chars, isSpace c = true) → IsGapBefore chars after
  | block {body after : List Char} : blockCommentLength? body = some body.length →
      IsGapBefore ('/' :: '*' :: body) after
  | line {body after : List Char} : IsLine body → IsLineEnd after → IsGapBefore ('/' :: '/' :: body) after
  | hash {body after : List Char} : IsLine body → body.head? ≠ some '[' → IsLineEnd after →
      IsGapBefore ('#' :: body) after

/-- Characters that begin a gap, an access operator or a member in braces. -/
def accessChars : List Char := [' ', '\t', '\n', '\r', '-', '>', ':', '?', '/', '#', '\x7b']

/-- Whether a piece of the kind can have the characters, with the others behind them. -/
def Fits : LexemeKind → List Char → List Char → Prop
  | .gap, chars, after => IsGapBefore chars after
  | .token (.symbol text), chars, _ => text = "\"" ∨ chars = text.toList
  | .token .variable, chars, _ => chars.head? = some '$'
  | .fault _, chars, after => after = [] ∨ ∃ c cs, chars = c :: cs ∧ c ∉ accessChars
  | _, _, _ => True

def Cut.FitsIn (cut : Cut) (c : Char) (rest : List Char) : Prop :=
  Fits cut.kind (c :: rest.take (cut.length - 1)) (rest.drop (cut.length - 1))

variable {c : Char} {rest : List Char}

/-! ### Extents -/

theorem take_runLength (p : Char → Bool) (cs : List Char) : cs.take (runLength p cs) = cs.takeWhile p :=
  (List.prefix_iff_eq_take.1 (List.takeWhile_prefix p)).symm

private theorem blockCommentLength?_take {cs : List Char} {n : Nat} (h : blockCommentLength? cs = some n) :
    blockCommentLength? (cs.take n) = some (cs.take n).length := by
  fun_induction blockCommentLength? cs generalizing n with
  | case1 cs =>
    simp only [Option.some.injEq] at h
    subst h
    rfl
  | case2 c cs hclose ih =>
    obtain ⟨m, hm, rfl⟩ := Option.map_eq_some_iff.1 h
    have hshort : ∀ tail, c = '*' → cs.take m = '/' :: tail → False := by
      intro tail hc htail
      cases cs with
      | nil => simp at htail
      | cons d cs =>
        cases m with
        | zero => simp at htail
        | succ m =>
          simp only [List.take_succ_cons, List.cons.injEq] at htail
          exact hclose cs hc (by rw [htail.1])
    rw [List.take_succ_cons, blockCommentLength?, ih hm]
    · simp
    · exact hshort
  | case3 => simp at h

private theorem lineCommentLength_spec (cs : List Char) :
    IsLine (cs.take (lineCommentLength cs)) ∧ IsLineEnd (cs.drop (lineCommentLength cs)) := by
  have hnil : IsLine [] := ⟨by simp, by simp, by simp⟩
  fun_induction lineCommentLength cs with
  | case1 => exact ⟨hnil, trivial⟩
  | case2 c cs hnot hend =>
    have hc : c = '\n' ∨ c = '\r' := by simpa using hend
    rcases hc with rfl | rfl <;> exact ⟨hnil, trivial⟩
  | case3 c cs hnot hend ih =>
    simp only [Bool.or_eq_true, decide_eq_true_eq, not_or] at hend
    refine ⟨⟨?_, ?_, ?_⟩, ih.2⟩
    · simpa [Ne.symm hend.1] using ih.1.lineFeed
    · simpa [Ne.symm hend.2] using ih.1.lineReturn
    · rw [List.take_succ_cons, List.infix_cons_iff, not_or]
      refine ⟨fun hfront => ?_, ih.1.closeTag⟩
      obtain ⟨rfl, htag⟩ := List.cons_prefix_cons.1 hfront
      obtain ⟨rest, hrest⟩ := htag.trans (List.take_prefix _ _)
      exact hnot rest rfl hrest.symm
  | case4 => exact ⟨hnil, trivial⟩

/-! ### Cuts -/

private theorem fits_wordKind (word chars after : List Char) : Fits (.token (wordKind word)) chars after := by
  unfold wordKind
  split <;> trivial

private theorem fitsIn_fault {length : Nat} {fault : Fault} {mode : LexMode} (h : c ∉ accessChars) :
    (⟨.fault fault, length, mode⟩ : Cut).FitsIn c rest :=
  .inr ⟨c, _, rfl, h⟩

private theorem fitsIn_lastFault (fault : Fault) (mode : LexMode) :
    (⟨.fault fault, (c :: rest).length, mode⟩ : Cut).FitsIn c rest :=
  .inl (by simp)

private theorem fitsIn_openingCut {cut : Cut} (h : openingCut (c :: rest) = some cut) : cut.FitsIn c rest := by
  unfold openingCut at h
  split at h
  · cases h
    trivial
  · split at h
    · cases h
      trivial
    · split at h
      · cases h
        trivial
      · simp at h

private theorem fitsIn_outsideCut : (outsideCut (c :: rest)).FitsIn c rest := by
  unfold outsideCut
  cases h : openingCut (c :: rest) with
  | none => trivial
  | some cut => exact fitsIn_openingCut h

private theorem fitsIn_quoteCut (quote : Char) (skipped : Nat) (cs : List Char) :
    (quoteCut quote skipped cs).FitsIn c rest := by
  unfold quoteCut
  split
  · exact .inl rfl
  · split <;> trivial

private theorem fitsIn_documentCut? {skipped : Nat} {cs : List Char} {other : Cut} (h : other.FitsIn c rest) :
    ((documentCut? skipped cs).getD other).FitsIn c rest := by
  unfold documentCut?
  cases documentOpening? cs with
  | none => exact h
  | some opening => trivial

private theorem fitsIn_wordCut (cs : List Char) : (wordCut cs).FitsIn c rest := by
  unfold wordCut
  dsimp only
  split
  · trivial
  · split
    · trivial
    · split
      · trivial
      · split <;> exact fits_wordKind _ _ _

private theorem fitsIn_numberCut (cs : List Char) (hc : c ∉ accessChars) : (numberCut cs).FitsIn c rest := by
  unfold numberCut
  dsimp only
  split
  · exact fitsIn_fault hc
  · trivial

private theorem not_mem_accessChars (hspace : isSpace c = false) (hhash : c = '#' → rest.head? = some '[')
    (h : symbols.find? (fun s => s.toList.isPrefixOf (c :: rest)) = none) : c ∉ accessChars := by
  intro hmem
  rw [List.find?_eq_none] at h
  simp only [accessChars, List.mem_cons, List.not_mem_nil, or_false] at hmem
  rcases hmem with rfl | rfl | rfl | rfl | rfl | rfl | rfl | rfl | rfl | rfl | rfl
  · simp [isSpace] at hspace
  · simp [isSpace] at hspace
  · simp [isSpace] at hspace
  · simp [isSpace] at hspace
  · exact h "-" (by decide) (by simp)
  · exact h ">" (by decide) (by simp)
  · exact h ":" (by decide) (by simp)
  · exact h "?" (by decide) (by simp)
  · exact h "/" (by decide) (by simp)
  · obtain ⟨tail, rfl⟩ := List.head?_eq_some_iff.1 (hhash rfl)
    exact h "#[" (by decide) (by simp)
  · exact h "\x7b" (by decide) (by simp)

private theorem fitsIn_symbolCut (hspace : isSpace c = false) (hhash : c = '#' → rest.head? = some '[') :
    (symbolCut (c :: rest)).FitsIn c rest := by
  unfold symbolCut
  split
  · rename_i text hfind
    have hfront := List.find?_some hfind
    have hne : ∀ text ∈ symbols, text.toList ≠ [] := by decide
    have htext := hne text (List.mem_of_find?_eq_some hfind)
    obtain ⟨after, hafter⟩ := List.isPrefixOf_iff_prefix.1 hfront
    right
    cases hchars : text.toList with
    | nil => exact absurd hchars htext
    | cons d chars =>
      rw [hchars, List.cons_append, List.cons.injEq] at hafter
      have hlength : text.length = chars.length + 1 := by
        rw [← String.length_toList, hchars, List.length_cons]
      simp [hlength, ← hafter.1, ← hafter.2]
  · rename_i hnone
    exact fitsIn_fault (not_mem_accessChars hspace hhash hnone)

private theorem fitsIn_spaces (hc : isSpace c = true) (mode : LexMode) :
    (⟨.gap, runLength isSpace (c :: rest), mode⟩ : Cut).FitsIn c rest := by
  have hlength : runLength isSpace (c :: rest) - 1 = runLength isSpace rest := by
    simp [runLength, hc]
  refine .spaces fun d hd => ?_
  rw [hlength, take_runLength, List.mem_cons] at hd
  rcases hd with rfl | hd
  · exact hc
  · exact List.all_eq_true.1 List.all_takeWhile d hd

private theorem not_mem_accessChars_of_isDigit (h : c.isDigit = true) : c ∉ accessChars := by
  have hall : ∀ c ∈ accessChars, c.isDigit = false := by simp [accessChars]
  intro hmem
  simp [hall c hmem] at h

private theorem fitsIn_plainCut (hhash : c ≠ '#') : (programCut.plainCut (c :: rest) c).FitsIn c rest := by
  unfold programCut.plainCut
  split
  · rename_i hc
    exact fitsIn_spaces hc _
  · rename_i hspace
    split
    · rename_i hdigit
      exact fitsIn_numberCut _ (not_mem_accessChars_of_isDigit hdigit)
    · split
      · exact fitsIn_wordCut _
      · exact fitsIn_symbolCut (by simpa using hspace) fun h => absurd h hhash

private theorem fitsIn_programCut : (programCut (c :: rest)).FitsIn c rest := by
  generalize hcs : c :: rest = cs
  unfold programCut
  split <;> cases hcs
  · trivial
  · split
    · rename_i n hn
      have hbody := blockCommentLength?_take hn
      exact .block hbody
    · exact fitsIn_lastFault _ _
  · rename_i body
    have hline := lineCommentLength_spec body
    exact .line hline.1 hline.2
  · exact fitsIn_symbolCut rfl (by simp)
  · rename_i hattribute
    have hline := lineCommentLength_spec rest
    refine .hash hline.1 ?_ hline.2
    intro hhead
    obtain ⟨tail, htail⟩ := List.head?_eq_some_iff.1 hhead
    have hsplit := List.take_append_drop (lineCommentLength rest) rest
    simp only [Nat.add_sub_cancel] at htail
    rw [htail, List.cons_append] at hsplit
    exact hattribute _ hsplit.symm
  · exact fitsIn_quoteCut _ _ _
  · exact fitsIn_quoteCut _ _ _
  · exact .inr rfl
  · exact fitsIn_documentCut? (fitsIn_symbolCut rfl (by simp))
  · split
    · trivial
    · exact fitsIn_symbolCut rfl (by simp)
  · split
    · exact fitsIn_numberCut _ (by decide)
    · exact fitsIn_symbolCut rfl (by simp)
  · split
    · trivial
    · exact fitsIn_symbolCut rfl (by simp)
  · split
    · exact fitsIn_wordCut _
    · exact fitsIn_symbolCut rfl (by simp)
  · split
    · exact fitsIn_quoteCut _ _ _
    · exact fitsIn_plainCut ‹_›
  · split
    · exact fitsIn_quoteCut _ _ _
    · exact fitsIn_plainCut ‹_›
  · split
    · rename_i hb
      simp only [Bool.or_eq_true, decide_eq_true_eq] at hb
      exact fitsIn_documentCut? (fitsIn_fault (by rcases hb with rfl | rfl <;> decide))
    · exact fitsIn_plainCut ‹_›
  · exact fitsIn_plainCut ‹_›

private theorem fitsIn_haltingCut (stage : HaltStage) : (haltingCut stage (c :: rest)).FitsIn c rest := by
  unfold haltingCut
  split
  · rename_i hc
    exact fitsIn_spaces (by simpa using hc) _
  · generalize hcs : c :: rest = cs
    split <;> cases hcs
    · exact .inr rfl
    · exact .inr rfl
    · exact .inr rfl
    · trivial
    · exact fitsIn_lastFault _ _

private theorem fitsIn_mode_cut (mode : LexMode) : (mode.cut (c :: rest)).FitsIn c rest := by
  cases mode with
  | opening =>
    simp only [LexMode.cut]
    split
    · trivial
    · exact fitsIn_outsideCut
  | outside => exact fitsIn_outsideCut
  | program => exact fitsIn_programCut
  | quoted quote afterText =>
    simp only [LexMode.cut]
    split
    · rename_i hquote
      have hc : c = quote := by simpa using hquote
      right
      simp [hc]
    · trivial
  | document interpolates label afterText =>
    simp only [LexMode.cut]
    split <;> trivial
  | halting stage => exact fitsIn_haltingCut stage
  | halted => trivial

theorem fitsIn_state_cut (state : LexState) : (state.cut (c :: rest)).FitsIn c rest := by
  have hmode : (state.mode.cut (c :: rest)).FitsIn c rest := fitsIn_mode_cut state.mode
  unfold LexState.cut
  dsimp only
  split
  · split
    · exact hmode
    · exact fitsIn_wordCut _
  · rename_i hfault
    rw [Cut.FitsIn, hfault] at hmode
    exact hmode
  · exact hmode

/-- Whether each of the pieces fits, with the ones after it behind it. -/
def AllFit : List Lexeme → Prop
  | [] => True
  | piece :: pieces => Fits piece.kind piece.chars (pieceChars pieces) ∧ AllFit pieces

theorem AllFit.of_append {as bs : List Lexeme} (h : AllFit (as ++ bs)) : AllFit bs := by
  induction as with
  | nil => exact h
  | cons a as ih => exact ih h.2

/-- White space and comments one after the other, with the other characters behind them. -/
inductive IsTrivia (after : List Char) : List Char → Prop
  | nil : IsTrivia after []
  | cons {chars rest : List Char} : IsGapBefore chars (rest ++ after) → IsTrivia after rest →
      IsTrivia after (chars ++ rest)

private theorem allFit_lexemesFrom (state : LexState) (cs : List Char) : AllFit (lexemesFrom state cs) := by
  fun_induction lexemesFrom state cs with
  | case1 => trivial
  | case2 state c rest inner cut tail ih =>
    have hpiece : AllFit (⟨cut.kind, c :: rest.take (cut.length - 1), inner.inside⟩ ::
        lexemesFrom (inner.advance cut tail) tail) := by
      refine ⟨?_, ih⟩
      rw [pieceChars, flatMap_lexemesFrom]
      exact fitsIn_state_cut inner
    unfold LexState.lead
    split
    · exact ⟨trivial, hpiece⟩
    · exact hpiece

theorem allFit_lexemes (cs : List Char) : AllFit (lexemes cs) := allFit_lexemesFrom _ _

theorem fits_of_mem_tokensOf {source : Source} {t : Token} (h : t ∈ tokensOf source) :
    ∃ after, Fits (.token t.kind) t.text.toList after := by
  obtain ⟨before, after, hsplit⟩ := List.append_of_mem h
  obtain ⟨front, piece, back, hpieces, -, hpiece, -⟩ := exists_piece_of_tokensIn hsplit
  obtain ⟨hkind, htext, -⟩ := Lexeme.token?_eq_some hpiece
  have hfit := allFit_lexemes source.chars
  rw [hpieces] at hfit
  refine ⟨pieceChars back, ?_⟩
  rw [← hkind, htext, String.toList_ofList]
  exact hfit.of_append.1

end CaretContext.Php
