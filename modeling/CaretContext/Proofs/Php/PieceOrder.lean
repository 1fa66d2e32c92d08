import CaretContext.Proofs.Php.Pieces
import Mathlib.Data.List.Chain

/-!
# Which pieces follow which

An interpolated expression in no other one begins behind text of its string, which may be empty, and with
its dollar sign or brace. Program text follows only pieces of the same expression, or a fault. No empty text
comes behind a parenthesis: an interpolated expression that ends in one has no other right behind it.
-/

namespace CaretContext.Php

/-- What holds of a piece and the one right behind it. -/
structure Continues (a b : Lexeme) : Prop where
  inside : b.inside = none ∨ b.inside = a.inside ∨
    a.kind = .token .stringPart ∧ a.inside = none ∧ ∃ c rest, b.chars = c :: rest ∧ (c = '$' ∨ c = '\x7b')
  program : b.kind = .gap ∨ b.kind = .token (.symbol "(") →
    b.inside = a.inside ∨ ∃ fault, a.kind = .fault fault
  opener : a.kind = .token (.symbol "(") → b.chars ≠ []

/-! ### Where an interpolated expression ends -/

private theorem exists_cons_of_opensInterpolation {cs : List Char} (h : opensInterpolation cs = true) :
    ∃ c rest, cs = c :: rest ∧ (c = '$' ∨ c = '\x7b') := by
  unfold opensInterpolation at h
  split at h
  · exact ⟨_, _, rfl, .inl rfl⟩
  · exact ⟨_, _, rfl, .inr rfl⟩
  · simp at h

private theorem nestedLength_spec (opener closer : Char) (depth : Nat) (cs : List Char) :
    nestedLength opener closer depth cs = cs.length ∨
      ∃ before after, cs = before ++ closer :: after ∧
        nestedLength opener closer depth cs = before.length + 1 := by
  -- One more character in front is taken along.
  have hcons : ∀ (c : Char) {cs : List Char} {n : Nat},
      (n = cs.length ∨ ∃ before after, cs = before ++ closer :: after ∧ n = before.length + 1) →
      n + 1 = (c :: cs).length ∨
        ∃ before after, c :: cs = before ++ closer :: after ∧ n + 1 = before.length + 1 := by
    rintro c cs n (rfl | ⟨before, after, rfl, rfl⟩)
    · exact .inl rfl
    · exact .inr ⟨c :: before, after, rfl, rfl⟩
  fun_induction nestedLength opener closer depth cs with
  | case1 => exact .inl rfl
  | case2 cs => exact .inr ⟨[], cs, rfl, rfl⟩
  | case3 cs depth ih => exact hcons _ ih
  | case4 depth cs hclose ih => exact hcons _ ih
  | case5 depth c cs hclose hopen ih => exact hcons _ ih

private theorem drop_nestedLength {opener closer c : Char} {depth : Nat} {cs tail : List Char}
    (hcloser : closer ≠ '(')
    (h : (c :: cs).drop (nestedLength opener closer depth cs) = '(' :: tail) : tail = [] := by
  rcases nestedLength_spec opener closer depth cs with hall | ⟨before, after, hcs, hlength⟩
  · have hsize := congrArg List.length h
    rw [hall] at hsize
    simpa using hsize
  · rw [hlength, hcs, List.drop_succ_cons, List.drop_left] at h
    exact absurd (List.cons.inj h).1 hcloser

private theorem drop_name_ne {front tail cs : List Char} {c : Char} {n : Nat} (hc : isNamePart c = true)
    (hn : n + 1 = front.length + runLength isNamePart (c :: cs)) :
    (front ++ c :: cs).drop n ≠ '(' :: tail := by
  intro h
  have hsplit : (c :: cs).takeWhile isNamePart ++ (c :: cs).dropWhile isNamePart = c :: cs :=
    List.takeWhile_append_dropWhile
  have hpos : 0 < ((c :: cs).takeWhile isNamePart).length := by simp [hc]
  rw [runLength] at hn
  have hlast := congrArg List.head? h
  rw [List.head?_drop, ← hsplit, List.getElem?_append_right (by omega),
    List.getElem?_append_left (by omega)] at hlast
  have hpart := List.all_eq_true.1 List.all_takeWhile _ (List.mem_of_getElem? hlast)
  simp [isNamePart, isNameStart] at hpart

private theorem drop_runLength (p : Char → Bool) (cs : List Char) : cs.drop
    (runLength p cs) = cs.dropWhile p := by
  have hsplit : cs.takeWhile p ++ cs.dropWhile p = cs := List.takeWhile_append_dropWhile
  calc cs.drop (runLength p cs)
      = (cs.takeWhile p ++ cs.dropWhile p).drop (cs.takeWhile p).length := by rw [hsplit, runLength]
    _ = cs.dropWhile p := List.drop_left

private theorem opensInterpolation_behind_index {cs tail : List Char} {c : Char}
    (h : (c :: cs).drop (indexLength cs) = '(' :: tail) : opensInterpolation tail = false := by
  unfold indexLength at h
  rcases Nat.le_total (nestedLength '[' ']' 0 cs) (runLength (fun c => !isBlank c) cs) with hle | hle
  · rw [Nat.min_eq_left hle] at h
    rw [drop_nestedLength (by decide) h]
    rfl
  · rw [Nat.min_eq_right hle] at h
    have htail : cs.dropWhile (fun c => !isBlank c) = tail := by
      have hdrop := congrArg (List.drop 1) h
      rw [List.drop_drop, List.drop_succ_cons, drop_runLength] at hdrop
      exact hdrop
    by_contra hopens
    obtain ⟨d, rest, hcons, hd⟩ := exists_cons_of_opensInterpolation (by simpa using hopens)
    have hblank := List.head?_dropWhile_not (fun c => !isBlank c) cs
    rw [htail, hcons] at hblank
    rcases hd with rfl | rfl <;> simp [isBlank] at hblank

private theorem opensInterpolation_behind_simple {c : Char} {cs tail : List Char} (hc : isNameStart c = true)
    (h : ('$' :: c :: cs).drop (simpleInterpolationLength ('$' :: c :: cs) - 1) = '(' :: tail) :
    opensInterpolation tail = false := by
  have hpart : isNamePart c = true := by simp [isNamePart, hc]
  have hpos : 0 < runLength isNamePart (c :: cs) := by simp [runLength, hpart]
  have hplain : ∀ d, isPlainNameStart d = true → isNamePart d = true := by
    intro d hd
    simp only [isPlainNameStart, Bool.or_eq_true] at hd
    rcases hd with hd | hd <;> simp [isNamePart, isNameStart, hd]
  have hvariable : ∀ {n}, n = runLength isNamePart (c :: cs) → (['$'] ++ c :: cs).drop n ≠ '(' :: tail :=
    fun hn => drop_name_ne hpart (by simp [hn, Nat.add_comm])
  have hsplit := List.take_append_drop (runLength isNamePart (c :: cs)) (c :: cs)
  have hsize : ((c :: cs).take (runLength isNamePart (c :: cs))).length = runLength isNamePart (c :: cs) := by
    rw [take_runLength, runLength]
  unfold simpleInterpolationLength at h
  simp only [List.drop_succ_cons, List.drop_zero] at h
  generalize runLength isNamePart (c :: cs) = length at *
  generalize (c :: cs).take length = word at *
  have hproperty : ∀ (arrow ds : List Char) (d : Char) {n : Nat}, isPlainNameStart d = true →
      word ++ (arrow ++ d :: ds) = c :: cs → n = length + (runLength isNamePart (d :: ds) + arrow.length) →
      ('$' :: c :: cs).drop n ≠ '(' :: tail := by
    rintro arrow ds d n hd hcs rfl
    rw [← hcs, ← List.append_assoc, ← List.cons_append]
    refine drop_name_ne (hplain d hd) ?_
    rw [List.length_cons, List.length_append, hsize]
    omega
  split at h
  · rename_i rest hrest
    have hlength : length + 1 + (indexLength rest + 1) - 1 = ('$' :: word).length + indexLength rest := by
      rw [List.length_cons, hsize]
      omega
    rw [hrest] at hsplit
    rw [← hsplit, hlength, ← List.cons_append, List.drop_length_add_append] at h
    exact opensInterpolation_behind_index h
  · rename_i d rest hrest
    rw [hrest] at hsplit
    split at h
    · exact absurd h (hproperty ['-', '>'] rest d ‹_› hsplit (by simp; omega))
    · exact absurd h (hvariable (by omega))
  · rename_i d rest hrest
    rw [hrest] at hsplit
    split at h
    · exact absurd h (hproperty ['?', '-', '>'] rest d ‹_› hsplit (by simp; omega))
    · exact absurd h (hvariable (by omega))
  · exact absurd h (hvariable (by omega))

/-- Behind an interpolated expression that ends in a parenthesis no other one begins. -/
theorem opensInterpolation_behind {cs tail : List Char} (hopens : opensInterpolation cs = true)
    (h : cs.drop (interpolationLength cs - 1) = '(' :: tail) : opensInterpolation tail = false := by
  unfold interpolationLength at h
  split at h
  · rename_i hbraces
    unfold opensBraces at hbraces
    split at hbraces
    · rw [drop_nestedLength (by decide) h]
      rfl
    · rw [drop_nestedLength (by decide) h]
      rfl
    · simp at hbraces
  · rename_i hbraces
    unfold opensInterpolation at hopens
    split at hopens
    · rename_i c cs
      have hc : isNameStart c = true := by
        rw [Bool.or_eq_true, decide_eq_true_eq] at hopens
        refine hopens.resolve_right fun hbrace => hbraces ?_
        rw [hbrace]
        rfl
      exact opensInterpolation_behind_simple hc h
    · rename_i c cs
      rw [decide_eq_true_eq] at hopens
      exact absurd (by rw [hopens]; rfl) hbraces
    · simp at hopens

private theorem interpolationLength_pos (cs : List Char) : 0 < interpolationLength cs := by
  unfold interpolationLength
  split
  · omega
  · unfold simpleInterpolationLength
    dsimp only
    omega

/-! ### Cuts -/

def LexMode.isText : LexMode → Bool
  | quoted _ _ => true
  | document _ _ _ => true
  | _ => false

def LexMode.IsSound : LexMode → Prop
  | quoted quote _ => quote ≠ '('
  | _ => True

/-- What is asked of a cut: only text of a string leads to a place right behind it, and a parenthesis leads
to no string. -/
structure Cut.IsOrderly (cut : Cut) : Prop where
  mode : cut.mode.IsSound
  text : cut.mode.afterText = true → cut.kind = .token .stringPart
  opener : cut.kind = .token (.symbol "(") → cut.mode.interpolates = false

private theorem Cut.IsOrderly.of_isText {cut : Cut} (h : cut.mode.isText = false) : cut.IsOrderly := by
  refine ⟨?_, fun htext => ?_, fun _ => ?_⟩
  · cases hmode : cut.mode <;> simp_all [LexMode.isText, LexMode.IsSound]
  · cases hmode : cut.mode <;> simp_all [LexMode.isText, LexMode.afterText]
  · cases hmode : cut.mode <;> simp_all [LexMode.isText, LexMode.interpolates]

private theorem isText_openingCut {cs : List Char} {cut : Cut} (h : openingCut cs = some cut) :
    cut.mode.isText = false := by
  unfold openingCut at h
  split at h
  · cases h
    rfl
  · split at h
    · cases h
      rfl
    · split at h
      · cases h
        rfl
      · simp at h

private theorem isText_outsideCut (cs : List Char) : (outsideCut cs).mode.isText = false := by
  unfold outsideCut
  cases h : openingCut cs with
  | none => rfl
  | some cut => exact isText_openingCut h

private theorem isText_wordCut (cs : List Char) : (wordCut cs).mode.isText = false := by
  unfold wordCut
  dsimp only
  split
  · rfl
  · split
    · rfl
    · split
      · rfl
      · split <;> rfl

private theorem isText_symbolCut (cs : List Char) : (symbolCut cs).mode.isText = false := by
  unfold symbolCut
  split <;> rfl

private theorem isText_plainCut (cs : List Char) (c : Char) :
    (programCut.plainCut cs c).mode.isText = false := by
  unfold programCut.plainCut
  split
  · rfl
  · split
    · rfl
    · split
      · exact isText_wordCut cs
      · exact isText_symbolCut cs

private theorem isText_haltingCut (stage : HaltStage) (cs : List Char) :
    (haltingCut stage cs).mode.isText = false := by
  unfold haltingCut
  split
  · rfl
  · split <;> rfl

private theorem isOrderly_quoteCut {quote : Char} (hquote : quote ≠ '(') (skipped : Nat) (cs : List Char) :
    (quoteCut quote skipped cs).IsOrderly := by
  unfold quoteCut
  split
  · exact ⟨hquote, by simp [LexMode.afterText], by simp⟩
  · split <;> exact .of_isText rfl

private theorem isOrderly_documentCut? {skipped : Nat} {cs : List Char} {other : Cut}
    (h : other.mode.isText = false) : ((documentCut? skipped cs).getD other).IsOrderly := by
  unfold documentCut?
  cases documentOpening? cs with
  | none => exact .of_isText h
  | some opening => exact ⟨trivial, by simp [LexMode.afterText], by simp⟩

private theorem isOrderly_programCut (cs : List Char) : (programCut cs).IsOrderly := by
  have hsymbol := isText_symbolCut cs
  unfold programCut
  split
  · exact .of_isText rfl
  · split <;> exact .of_isText rfl
  · exact .of_isText rfl
  · exact .of_isText hsymbol
  · exact .of_isText rfl
  · exact isOrderly_quoteCut (by decide) _ _
  · exact isOrderly_quoteCut (by decide) _ _
  · exact ⟨by simp [LexMode.IsSound], by simp [LexMode.afterText], by simp⟩
  · exact isOrderly_documentCut? hsymbol
  · split
    · exact .of_isText rfl
    · exact .of_isText hsymbol
  · split
    · exact .of_isText rfl
    · exact .of_isText hsymbol
  · split
    · exact .of_isText rfl
    · exact .of_isText hsymbol
  · split
    · exact .of_isText (isText_wordCut _)
    · exact .of_isText hsymbol
  · split
    · exact isOrderly_quoteCut (by decide) _ _
    · exact .of_isText (isText_plainCut _ _)
  · split
    · exact isOrderly_quoteCut (by decide) _ _
    · exact .of_isText (isText_plainCut _ _)
  · split
    · exact isOrderly_documentCut? rfl
    · exact .of_isText (isText_plainCut _ _)
  · exact .of_isText (isText_plainCut _ _)
  · exact .of_isText rfl

private theorem isOrderly_mode_cut {mode : LexMode} (hmode : mode.IsSound)
    (cs : List Char) : (mode.cut cs).IsOrderly := by
  cases mode with
  | opening =>
    simp only [LexMode.cut]
    split
    · exact .of_isText rfl
    · exact .of_isText (isText_outsideCut cs)
  | outside => exact .of_isText (isText_outsideCut cs)
  | program => exact isOrderly_programCut cs
  | quoted quote afterText =>
    simp only [LexMode.cut]
    split
    · exact .of_isText rfl
    · exact ⟨hmode, fun _ => rfl, by simp⟩
  | document interpolates label afterText =>
    simp only [LexMode.cut]
    split
    · exact .of_isText rfl
    · exact ⟨trivial, fun _ => rfl, by simp⟩
  | halting stage => exact .of_isText (isText_haltingCut stage cs)
  | halted => exact .of_isText rfl

private theorem isOrderly_state_cut {state : LexState} (hmode : state.mode.IsSound)
    (cs : List Char) : (state.cut cs).IsOrderly := by
  have horderly := isOrderly_mode_cut hmode cs
  unfold LexState.cut
  dsimp only
  split
  · split
    · exact horderly
    · exact .of_isText (isText_wordCut _)
  · rename_i hfault
    refine ⟨horderly.mode, fun htext => ?_, by simp⟩
    have hkind := horderly.text htext
    rw [hfault] at hkind
    cases hkind
  · exact horderly

private theorem kind_cut_of_interpolates {mode : LexMode} (h : mode.interpolates = true) (cs : List Char) :
    (mode.cut cs).kind = .token .stringPart ∨ (mode.cut cs).kind = .token .documentEnd ∨
      ∃ quote afterText, mode = .quoted quote afterText ∧
        (mode.cut cs).kind = .token (.symbol (String.singleton quote)) := by
  cases mode with
  | quoted quote afterText =>
    simp only [LexMode.cut]
    split
    · exact .inr (.inr ⟨quote, afterText, rfl, rfl⟩)
    · exact .inl rfl
  | document interpolates label afterText =>
    simp only [LexMode.cut]
    split
    · exact .inr (.inl rfl)
    · exact .inl rfl
  | _ => cases h

private theorem interpolates_of_cut {state : LexState} (hmode : state.mode.IsSound)
    {cs : List Char} (h : (state.cut cs).kind = .gap ∨ (state.cut cs).kind = .token (.symbol "(")) :
    state.mode.interpolates = false := by
  by_contra hnot
  have hinterpolates : state.mode.interpolates = true := by simpa using hnot
  rcases kind_cut_of_interpolates hinterpolates cs with hkind | hkind | ⟨quote, afterText, hquoted, hkind⟩
  · simp [LexState.cut, hkind] at h
  · simp [LexState.cut, hkind] at h
  · have hquote : String.singleton quote = "(" := by simpa [LexState.cut, hkind] using h
    rw [hquoted] at hmode
    exact hmode (by simpa using congrArg String.toList hquote)

/-! ### States -/

/-- What is asked of an interpolated expression being read, by the text that is left. -/
structure Interpolation.IsSound (i : Interpolation) (cs : List Char) : Prop where
  interpolates : i.mode.interpolates = true
  afterText : i.mode.afterText = false
  mode : i.mode.IsSound
  stop : ∀ tail, ('(' :: tail) <:+ cs → tail.length = i.stop → opensInterpolation tail = false

/-- What is asked of a state, by the text that is left. The innermost expression goes on, unless the state
is back in a string. -/
structure LexState.IsSound (state : LexState) (cs : List Char) : Prop where
  mode : state.mode.IsSound
  pending : ∀ i ∈ state.pending, i.IsSound cs
  stop : ∀ i ∈ state.pending.head?, state.mode.interpolates = false → i.stop < cs.length

/-- What a piece has to do with the state behind it. -/
structure Lexeme.Links (a : Lexeme) (state : LexState) (cs : List Char) : Prop where
  inside : a.inside = state.inside ∨
    state.pending = [] ∧ (state.mode.interpolates = true ∨ ∃ fault, a.kind = .fault fault)
  text : state.mode.afterText = true → a.kind = .token .stringPart ∧ a.inside = state.inside
  opener : a.kind = .token (.symbol "(") → state.enters cs = false

private theorem Interpolation.IsSound.of_suffix {i : Interpolation} {cs cs' : List Char} (h : i.IsSound cs)
    (hsuffix : cs' <:+ cs) : i.IsSound cs' :=
  { h with stop := fun tail htail => h.stop tail (htail.trans hsuffix) }

/-- The outermost expression stays the same while there is one around the innermost. -/
theorem inside_of_cons {state next : LexState} {i : Interpolation} (hne : next.pending ≠ [])
    (h : state.pending = i :: next.pending) : state.inside = next.inside := by
  rw [LexState.inside, h, List.getLast?_cons_of_ne_nil hne, LexState.inside]

private theorem LexState.IsSound.enter {state : LexState} {cs : List Char} (h : state.IsSound cs)
    (hne : cs ≠ []) :
    (state.enter cs).IsSound cs := by
  unfold LexState.enter
  split
  · rename_i henters
    simp only [LexState.enters, Bool.and_eq_true] at henters
    have hpos := interpolationLength_pos cs
    have hlength : 0 < cs.length := List.length_pos_iff.2 hne
    refine ⟨trivial, fun i hi => ?_, ?_⟩
    · rcases List.mem_cons.1 hi with rfl | hi
      · refine ⟨?_, ?_, ?_, fun tail hsuffix htail => ?_⟩
        · rw [← henters.1]
          cases state.mode <;> rfl
        · cases state.mode <;> rfl
        · have hmode := h.mode
          cases hstate : state.mode with
          | quoted quote afterText =>
            rw [hstate] at hmode
            exact hmode
          | _ => trivial
        · -- Counted from the end of the text, the expression ends where its length says.
          dsimp only at htail
          rw [List.suffix_iff_eq_drop, List.length_cons, htail] at hsuffix
          by_cases hle : interpolationLength cs ≤ cs.length
          · have hstart : cs.length - (cs.length - interpolationLength cs + 1) =
                interpolationLength cs - 1 := by omega
            rw [hstart] at hsuffix
            exact opensInterpolation_behind henters.2 hsuffix.symm
          · have hnil : tail = [] := List.length_eq_zero_iff.1 (by omega)
            rw [hnil]
            rfl
      · exact h.pending i hi
    · intro i hi _
      simp only [List.head?_cons, Option.mem_some_iff] at hi
      subst hi
      dsimp only
      omega
  · exact h

/-- A cut leaves all strings at a fault, ends the innermost expression, or goes on in it. -/
theorem advance_cases (state : LexState) (cut : Cut) (rest : List Char) :
    ((∃ fault, cut.kind = .fault fault) ∧ state.advance cut rest = ⟨cut.mode, []⟩) ∨
      (∃ i pending, state.pending = i :: pending ∧ rest.length ≤ i.stop ∧
        state.advance cut rest = ⟨i.mode, pending⟩) ∨
      (∀ i ∈ state.pending.head?, i.stop < rest.length) ∧
        state.advance cut rest = ⟨cut.mode, state.pending⟩ := by
  unfold LexState.advance
  split
  · rename_i fault hkind
    exact .inl ⟨⟨fault, hkind⟩, rfl⟩
  · rename_i i pending hpending _
    split
    · rename_i hle
      exact .inr (.inl ⟨i, pending, hpending, hle, rfl⟩)
    · rename_i hlt
      refine .inr (.inr ⟨fun j hj => ?_, by rw [hpending]⟩)
      rw [hpending, List.head?_cons, Option.mem_some_iff] at hj
      rw [← hj]
      omega
  · rename_i hpending _
    exact .inr (.inr ⟨by simp [hpending], by rw [hpending]⟩)

section Step

variable {state : LexState} {cs tail : List Char}

private theorem LexState.IsSound.advance (h : state.IsSound cs) (htail : tail <:+ cs) :
    (state.advance (state.cut cs) tail).IsSound tail := by
  have hmode := (isOrderly_state_cut h.mode cs).mode
  have hpending : ∀ i ∈ state.pending, i.IsSound tail := fun i hi => (h.pending i hi).of_suffix htail
  rcases advance_cases state (state.cut cs) tail with
    ⟨-, hnext⟩ | ⟨i, pending, hcons, -, hnext⟩ | ⟨hstop, hnext⟩
  · rw [hnext]
    exact ⟨hmode, by simp, by simp⟩
  · rw [hnext]
    have hi := hpending i (by simp [hcons])
    refine ⟨hi.mode, fun j hj => hpending j (by simp [hcons, hj]), fun _ _ hnot => ?_⟩
    rw [hi.interpolates] at hnot
    cases hnot
  · rw [hnext]
    exact ⟨hmode, hpending, fun i hi _ => hstop i hi⟩

private theorem LexState.IsSound.links {chars : List Char} (h : state.IsSound cs) (hcs : cs = chars ++ tail)
    (hopener : (state.cut cs).kind = .token (.symbol "(") → chars = ['(']) :
    (⟨(state.cut cs).kind, chars, state.inside⟩ : Lexeme).Links (state.advance (state.cut cs) tail) tail := by
  have horderly := isOrderly_state_cut h.mode cs
  rcases advance_cases state (state.cut cs) tail with
    ⟨⟨fault, hfault⟩, hnext⟩ | ⟨i, pending, hcons, hle, hnext⟩ | ⟨-, hnext⟩
  · rw [hnext]
    refine ⟨.inr ⟨rfl, .inr ⟨fault, hfault⟩⟩, fun htext => ?_, fun hkind => ?_⟩
    · have hkind := horderly.text htext
      simp [hfault] at hkind
    · simp [hfault] at hkind
  · rw [hnext]
    have hi := h.pending i (by simp [hcons])
    refine ⟨?_, fun htext => ?_, fun hkind => ?_⟩
    · by_cases hlast : pending = []
      · exact .inr ⟨hlast, .inl hi.interpolates⟩
      · have hsame : state.inside = (⟨i.mode, pending⟩ : LexState).inside := inside_of_cons hlast hcons
        exact .inl hsame
    · simp [hi.afterText] at htext
    · -- The expression ends with the parenthesis, since it went on up to there.
      have hstop := h.stop i (by simp [hcons]) (interpolates_of_cut h.mode (.inr hkind))
      rw [hopener hkind, List.singleton_append] at hcs
      have hlength : tail.length = i.stop := by
        rw [hcs, List.length_cons] at hstop
        omega
      have hopens := hi.stop tail (hcs ▸ List.suffix_rfl) hlength
      simp [LexState.enters, hopens]
  · rw [hnext]
    refine ⟨.inl rfl, fun htext => ⟨horderly.text htext, rfl⟩, fun hkind => ?_⟩
    simp [LexState.enters, horderly.opener hkind]

end Step

/-! ### Runs -/

private theorem Lexeme.Links.continues {a b : Lexeme} {state : LexState} {cs : List Char} (h : a.Links state cs)
    (hinside : b.inside = state.inside) (hopener : a.kind = .token (.symbol "(") → b.chars ≠ [])
    (hprogram : b.kind = .gap ∨ b.kind = .token (.symbol "(") → state.mode.interpolates = false) :
    Continues a b := by
  refine ⟨?_, fun hkind => ?_, hopener⟩
  · rcases h.inside with hsame | ⟨hnil, -⟩
    · exact .inr (.inl (hinside.trans hsame.symm))
    · exact .inl (by rw [hinside, LexState.inside, hnil]; rfl)
  · rcases h.inside with hsame | ⟨-, hstring | hfault⟩
    · exact .inl (hinside.trans hsame.symm)
    · simp [hprogram hkind] at hstring
    · exact .inr hfault

private theorem head_ne_of_fits {kind : LexemeKind} {c : Char} {chars after : List Char}
    (h : Fits kind (c :: chars) after) (hkind : kind = .gap ∨ kind = .token (.symbol "(")) :
    c ≠ '$' ∧ c ≠ '\x7b' := by
  rcases hkind with rfl | rfl
  · have hgap : IsGapBefore (c :: chars) after := h
    cases hgap with
    | spaces hspaces =>
      have hc := hspaces c (by simp)
      exact ⟨by rintro rfl; simp [isSpace] at hc, by rintro rfl; simp [isSpace] at hc⟩
    | block => decide
    | line => decide
    | hash => decide
  · have hchars : c :: chars = ['('] := h.resolve_left (by decide)
    rw [(List.cons.inj hchars).1]
    decide

private theorem continues_of_enters {a : Lexeme} {state : LexState} {kind : LexemeKind} {c : Char}
    {rest chars after : List Char} (henters : state.enters (c :: rest) = true)
    (hkind : a.kind = .token .stringPart) (hinside : a.inside = state.inside)
    (hfits : Fits kind (c :: chars) after) :
    Continues a ⟨kind, c :: chars, (state.enter (c :: rest)).inside⟩ := by
  obtain ⟨_, _, hcons, hc⟩ := exists_cons_of_opensInterpolation (Bool.and_eq_true_iff.1 henters).2
  obtain ⟨rfl, -⟩ := List.cons.inj hcons
  refine ⟨?_, fun hprogram => ?_, by simp⟩
  · by_cases hnil : state.pending = []
    · have hnone : a.inside = none := by rw [hinside, LexState.inside, hnil]; rfl
      exact .inr (.inr ⟨hkind, hnone, c, chars, rfl, hc⟩)
    · have hcons : (state.enter (c :: rest)).inside = state.inside :=
        inside_of_cons hnil (by rw [LexState.enter, if_pos henters])
      exact .inr (.inl (hcons.trans hinside.symm))
  · have hne := head_ne_of_fits hfits hprogram
    rcases hc with hc | hc
    · exact absurd hc hne.1
    · exact absurd hc hne.2

/-- Each piece has the one behind it to go on with, from a state on that the piece in front leads to. -/
theorem isChain_lexemesFrom {state : LexState} {cs : List Char} {a : Lexeme} (hstate : state.IsSound cs)
    (hlinks : a.Links state cs) : (a :: lexemesFrom state cs).IsChain Continues := by
  fun_induction lexemesFrom state cs generalizing a with
  | case1 => exact .singleton a
  | case2 state c rest inner cut tail =>
    rename_i ih
    have hinner : inner.IsSound (c :: rest) := hstate.enter (by simp)
    have hfits : Fits cut.kind (c :: rest.take (cut.length - 1)) tail := fitsIn_state_cut inner
    have hcs : c :: rest = (c :: rest.take (cut.length - 1)) ++ tail := by
      rw [List.cons_append, List.take_append_drop]
    have hrest := ih (hinner.advance (hcs ▸ List.suffix_append _ _)) (hinner.links hcs fun hkind => by
      rw [hkind] at hfits
      exact hfits.resolve_left (by decide))
    -- Where an expression begins, empty text comes first, unless text of the string was just cut.
    cases henters : state.enters (c :: rest) with
    | false =>
      have hsame : inner = state := by simp [inner, LexState.enter, henters]
      rw [LexState.lead, henters, Bool.false_and, if_neg (by simp), List.nil_append]
      refine .cons_cons (hlinks.continues (by rw [hsame]) (by simp) fun hkind => ?_) hrest
      rw [← hsame]
      exact interpolates_of_cut hinner.mode hkind
    | true =>
      cases htext : state.mode.afterText with
      | true =>
        obtain ⟨hkind, hinside⟩ := hlinks.text htext
        rw [LexState.lead, henters, htext, Bool.not_true, Bool.and_false, if_neg (by simp), List.nil_append]
        exact .cons_cons (continues_of_enters henters hkind hinside hfits) hrest
      | false =>
        rw [LexState.lead, henters, htext, Bool.not_false, Bool.and_true, if_pos rfl, List.singleton_append]
        refine .cons_cons (hlinks.continues rfl ?_ (by simp))
          (.cons_cons (continues_of_enters henters rfl rfl hfits) hrest)
        intro hkind
        simp [hlinks.opener hkind] at henters

/-- The pieces of a text, one after the other, with nothing in front of the first. -/
theorem isChain_lexemes (cs : List Char) : (⟨.gap, [], none⟩ :: lexemes cs).IsChain Continues := by
  refine isChain_lexemesFrom ⟨trivial, by simp, by simp⟩ ⟨.inl rfl, ?_, by simp⟩
  simp [LexMode.afterText]

/-! ### Lost pieces -/

/-- Whether a piece is part of an interpolated expression that is lost. -/
def Lexeme.IsCutOff (broken : Option Nat) (piece : Lexeme) : Prop :=
  ∃ start ∈ piece.inside, ∃ first ∈ broken, start ≤ first

theorem isLost_iff_isCutOff {broken : Option Nat} {piece : Lexeme} {kind : TokenKind}
    (h : piece.kind = .token kind) : piece.isLost broken = true ↔ piece.IsCutOff broken := by
  unfold Lexeme.isLost Lexeme.IsCutOff
  rw [h]
  cases piece.inside <;> cases broken <;> simp

private theorem isCutOff_congr {broken : Option Nat} {a b : Lexeme} (h : a.inside = b.inside) :
    a.IsCutOff broken ↔ b.IsCutOff broken := by
  rw [Lexeme.IsCutOff, h, Lexeme.IsCutOff]

section Lost

variable {broken : Option Nat} {offset : Nat} {pieces back : List Lexeme}

/-- Behind a piece that is not lost stand no lost ones, unless it is text of a string and an interpolated
expression begins behind it. -/
theorem ne_token_or_opens {a : Lexeme} (ha : ¬ a.IsCutOff broken)
    (hchain : (a :: (pieces ++ back)).IsChain Continues)
    (hnone : tokensIn (placeItems broken offset pieces) = []) :
    (∀ piece ∈ pieces, ∀ kind, piece.kind ≠ .token kind) ∨
      a.kind = .token .stringPart ∧ ∃ c rest, pieceChars pieces = c :: rest ∧ (c = '$' ∨ c = '\x7b') := by
  induction pieces generalizing a offset with
  | nil => exact .inl (by simp)
  | cons b pieces ih =>
    rw [List.cons_append, List.isChain_cons_cons] at hchain
    by_cases hb : b.IsCutOff broken
    · rcases hchain.1.inside with hout | hsame | ⟨hkind, -, c, rest, hchars, hc⟩
      · obtain ⟨start, hstart, -⟩ := hb
        simp [hout] at hstart
      · exact absurd ((isCutOff_congr hsame).1 hb) ha
      · exact .inr ⟨hkind, c, rest ++ pieceChars pieces, by rw [pieceChars_cons, hchars]; rfl, hc⟩
    · have hkind : ∀ kind, b.kind ≠ .token kind := fun kind hkind =>
        hb ((isLost_iff_isCutOff hkind).1 (isLost_of_tokensIn_eq_nil hnone (by simp) hkind))
      rw [tokensIn_placeItems_cons, List.append_eq_nil_iff] at hnone
      rcases ih hb hchain.2 hnone.2 with hrest | ⟨htext, -⟩
      · exact .inl (List.forall_mem_cons.2 ⟨hkind, hrest⟩)
      · exact absurd htext (hkind _)

end Lost

end CaretContext.Php
