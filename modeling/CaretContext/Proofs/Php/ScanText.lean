import CaretContext.Proofs.Php.GapText

/-!
# The scan over text without tokens

A scan that finds its member has skipped the gaps in its way, one after the other. It stops at a fault, at
white space that it does not know, and at a comment that it is not to skip. Only a line comment that ends in
a carriage return without a line feed takes it further than the gap goes.
-/

namespace CaretContext.Php

open MemberScan

variable {r : Request} {matched offset stop : Nat}

/-- Whether the characters begin a line comment, if they begin a gap. -/
def IsLineComment (chars : List Char) : Prop := ['/', '/'] <+: chars ∨ ['#'] <+: chars

/-- Whether a line comment in the gap, with the other characters behind it, ends in a carriage return that
no line feed follows. -/
def EndsAtReturn (after gap : List Char) : Prop :=
  ∃ front body back, gap = front ++ (body ++ '\r' :: back) ∧
    IsTrivia (body ++ '\r' :: back ++ after) front ∧ IsGapBefore body ('\r' :: back ++ after) ∧
    IsLineComment body ∧ back.head? ≠ some '\n'

/-! ### Where the scan stops -/

private theorem scan_ne_ok {b : UInt8} {rest : List UInt8} (hmember : r.member.toList.head? = some '\x7b')
    (hblank : MemberScan.isBlank b = false)
    (hcomment : (if r.skipComments then commentLength? (b :: rest) else none) = none)
    (hexpected : b ∉ r.expected) (hbrace : b ≠ 123) : scan r matched offset (b :: rest) ≠ .ok stop := by
  intro h
  obtain ⟨tail, htail⟩ := List.head?_eq_some_iff.1 hmember
  have hbytes : encode r.member.toList = 123 :: encode tail := by
    rw [htail]
    rfl
  rw [scan_stop hblank hcomment, if_neg fun hnext => hexpected (List.mem_of_getElem? hnext)] at h
  obtain ⟨-, hfront, -⟩ := settle_eq_ok h
  rw [hbytes, List.cons_prefix_cons] at hfront
  exact hbrace hfront.1.symm

/-- A character that begins no gap, no operator and no member stops the scan. -/
theorem scan_foreign_ne_ok (hmember : r.member.toList.head? = some '\x7b') {c : Char} (hc : c ∉ accessChars)
    (cs : List Char) : scan r matched offset (encode (c :: cs)) ≠ .ok stop := by
  cases hbytes : encode (c :: cs) with
  | nil => simp [scan]
  | cons b rest =>
    have haccess : encode accessChars = [32, 9, 10, 13, 45, 62, 58, 63, 47, 35, 123] := by decide
    have hascii : ∀ b ∈ encode accessChars, b.toNat < 128 := by simp [haccess]
    have hb : b ∉ encode accessChars := by
      intro hmem
      have hhead : (String.utf8EncodeChar c ++ encode cs).head? = some b := by
        rw [← encode_cons, hbytes, List.head?_cons]
      obtain ⟨d, hd, hnat⟩ := mem_of_mem_encode hmem (hascii b hmem)
      have hsame : c = d := Char.toNat_inj.1 ((head_utf8EncodeChar hhead (hascii b hmem)).trans hnat.symm)
      exact hc (hsame ▸ hd)
    simp only [haccess, List.mem_cons, List.not_mem_nil, or_false, not_or] at hb
    refine scan_ne_ok hmember ?_ ?_ ?_ ?_
    · simp [MemberScan.isBlank, hb]
    · have hnone : commentLength? (b :: rest) = none := by
        unfold commentLength?
        split <;> simp_all
      rw [hnone, ite_self]
    · intro hmem
      rcases mem_expected hmem with rfl | rfl | rfl | rfl <;> simp at hb
    · exact hb.2.2.2.2.2.2.2.2.2.2

private theorem scan_comment_ne_ok (hmember : r.member.toList.head? = some '\x7b')
    (hskip : r.skipComments = false)
    {b : UInt8} (hb : b = 47 ∨ b = 35) (rest : List UInt8) : scan r matched offset (b :: rest) ≠ .ok stop := by
  have hoperator : b ∉ r.expected := by
    intro hmem
    rcases hb with rfl | rfl <;> simpa using mem_expected hmem
  refine scan_ne_ok hmember ?_ (by rw [hskip]; rfl) hoperator ?_ <;> rcases hb with rfl | rfl <;> decide

/-! ### What the scan skips -/

private theorem scan_over_spaces (hmember : r.member.toList.head? = some '\x7b') {chars after : List Char}
    (hspaces : ∀ c ∈ chars, isSpace c = true)
    (h : scan r matched offset (encode (chars ++ after)) = .ok stop) :
    scan r matched (offset + byteSize chars) (encode after) = .ok stop := by
  induction chars generalizing offset with
  | nil => exact h
  | cons c chars ih =>
    rw [List.forall_mem_cons] at hspaces
    have hblank : ∀ b, String.utf8EncodeChar c = [b] → MemberScan.isBlank b = true → c.utf8Size = 1 →
        scan r matched (offset + byteSize (c :: chars)) (encode after) = .ok stop := by
      intro b hbytes hb hsize
      rw [List.cons_append, encode_cons, hbytes, List.singleton_append, scan_blank hb] at h
      have hrest := ih hspaces.2 h
      rw [byteSize, hsize, ← Nat.add_assoc]
      exact hrest
    have hc := hspaces.1
    simp only [isSpace, Bool.or_eq_true, decide_eq_true_eq] at hc
    rcases hc with ((((rfl | rfl) | rfl) | rfl) | rfl) | rfl
    · exact hblank 32 (by decide) rfl rfl
    · exact hblank 9 (by decide) rfl rfl
    · exact hblank 10 (by decide) rfl rfl
    · exact hblank 13 (by decide) rfl rfl
    · exact absurd h (scan_foreign_ne_ok hmember (by decide) _)
    · exact absurd h (scan_foreign_ne_ok hmember (by decide) _)

private theorem scan_into_gap (hskip : r.skipComments = true) {front mid : List UInt8}
    (h : IsGap (front ++ mid))
    (hmid : IsGap mid) (rest : List UInt8) :
    scan r matched offset (front ++ (mid ++ rest)) = scan r matched (offset + front.length) (mid ++ rest) := by
  rw [← List.append_assoc, scan_gap hskip h, scan_gap hskip hmid, List.length_append, Nat.add_assoc]

/-- Whether the end of a line with a line feed comes next. -/
def FeedsLine (chars : List Char) : Prop :=
  ∃ mid rest, chars = mid ++ '\n' :: rest ∧ (mid = [] ∨ mid = ['\r'])

private theorem scan_over_line (hskip : r.skipComments = true) {front after : List Char}
    (hfeed : FeedsLine after)
    (hgap : ∀ mid : List UInt8, 10 ∉ mid → (mid = [] ∨ mid = [13]) → IsGap (encode front ++ (mid ++ [10])))
    (h : scan r matched offset (encode (front ++ after)) = .ok stop) :
    scan r matched (offset + byteSize front) (encode after) = .ok stop := by
  obtain ⟨mid, rest, rfl, hmid⟩ := hfeed
  have hbytes : encode (mid ++ '\n' :: rest) = (encode mid ++ [10]) ++ encode rest := by
    rw [encode_append, encode_cons, List.append_assoc]
    rfl
  have hend : IsGap (encode mid ++ [10]) ∧ IsGap (encode front ++ (encode mid ++ [10])) := by
    rcases hmid with rfl | rfl
    · exact ⟨.blank (by decide) .nil, hgap [] (by simp) (.inl rfl)⟩
    · exact ⟨.blank (by decide) (.blank (by decide) .nil), hgap [13] (by simp) (.inr rfl)⟩
  rw [encode_append, hbytes, scan_into_gap hskip hend.2 hend.1, length_encode] at h
  rw [hbytes]
  exact h

private theorem scan_over_gap (hmember : r.member.toList.head? = some '\x7b') {chars after : List Char}
    (hgap : IsGapBefore chars after) (hfeed : r.skipComments = true → IsLineComment chars → FeedsLine after)
    (h : scan r matched offset (encode (chars ++ after)) = .ok stop) :
    scan r matched (offset + byteSize chars) (encode after) = .ok stop := by
  cases hgap with
  | spaces hspaces => exact scan_over_spaces hmember hspaces h
  | @block body _ hbody =>
    cases hskip : r.skipComments with
    | false => exact absurd h (scan_comment_ne_ok hmember hskip (.inl rfl) _)
    | true =>
      rw [encode_append, scan_gap hskip (isGap_block hbody), length_encode] at h
      exact h
  | @line body _ hbody _ =>
    cases hskip : r.skipComments with
    | false => exact absurd h (scan_comment_ne_ok hmember hskip (.inl rfl) _)
    | true =>
      refine scan_over_line hskip (hfeed hskip (.inl ⟨body, rfl⟩)) (fun mid hmid _ => ?_) h
      have hline : 10 ∉ encode body ++ mid := by simp [lineFeed_not_mem_encode hbody.lineFeed, hmid]
      have hcomment := IsGap.line hline .nil
      simpa [utf8EncodeChar_slash] using hcomment
  | @hash body _ hbody hhead _ =>
    cases hskip : r.skipComments with
    | false => exact absurd h (scan_comment_ne_ok hmember hskip (.inr rfl) _)
    | true =>
      refine scan_over_line hskip (hfeed hskip (.inr ⟨body, rfl⟩)) (fun mid hmid hshape => ?_) h
      have hline : 10 ∉ encode body ++ mid := by simp [lineFeed_not_mem_encode hbody.lineFeed, hmid]
      have hcomment := IsGap.hash hline (head_encode_ne_bracket hhead hshape) .nil
      have hsharp : String.utf8EncodeChar '#' = [35] := by decide
      simpa [hsharp] using hcomment

/-! ### Pieces between tokens -/

private theorem isLineEnd_of_isLineComment {chars after : List Char} (hgap : IsGapBefore chars after)
    (h : IsLineComment chars) : IsLineEnd after := by
  cases hgap with
  | spaces hspaces =>
    rcases h with ⟨rest, rfl⟩ | ⟨rest, rfl⟩
    · have hslash := hspaces '/' (by simp)
      simp [isSpace] at hslash
    · have hsharp := hspaces '#' (by simp)
      simp [isSpace] at hsharp
  | block =>
    rcases h with ⟨rest, hrest⟩ | ⟨rest, hrest⟩ <;> simp at hrest
  | line _ hend => exact hend
  | hash _ _ hend => exact hend

section Pieces

variable {pieces back : List Lexeme}

private theorem head_pieceChars_ne {c : Char} {cs : List Char} (hfit : AllFit (pieces ++ back))
    (hkind : ∀ piece ∈ pieces, ∀ kind, piece.kind ≠ .token kind) (hback : pieceChars back ≠ [])
    (h : pieceChars pieces = c :: cs) : c ≠ '?' := by
  induction pieces with
  | nil => simp [pieceChars] at h
  | cons piece pieces ih =>
    rw [List.forall_mem_cons] at hkind
    rw [pieceChars_cons] at h
    have hfirst := hfit.1
    cases hchars : piece.chars with
    | nil =>
      rw [hchars, List.nil_append] at h
      exact ih hfit.2 hkind.2 h
    | cons d ds =>
      rw [hchars, List.cons_append, List.cons.injEq] at h
      rw [← h.1]
      rw [hchars] at hfirst
      rintro rfl
      cases hpiece : piece.kind with
      | token kind => exact hkind.1 kind hpiece
      | gap =>
        rw [hpiece] at hfirst
        have hgap : IsGapBefore ('?' :: ds) (pieceChars (pieces ++ back)) := hfirst
        cases hgap with
        | spaces hspaces => simpa [isSpace] using hspaces '?' (by simp)
      | fault fault =>
        rw [hpiece] at hfirst
        rcases hfirst with hnil | ⟨d, ds, hcons, hd⟩
        · simp [hback] at hnil
        · rw [← (List.cons.inj hcons).1] at hd
          exact hd (by decide)

private theorem feedsLine_of_isLineEnd (hfit : AllFit (pieces ++ back))
    (hkind : ∀ piece ∈ pieces, ∀ kind, piece.kind ≠ .token kind) (hback : ¬ IsLineEnd (pieceChars back))
    (hend : IsLineEnd (pieceChars (pieces ++ back)))
    (hreturn : ∀ cs, pieceChars pieces = '\r' :: cs → cs.head? = some '\n') :
    FeedsLine (pieceChars (pieces ++ back)) := by
  rw [pieceChars_append] at hend ⊢
  cases hchars : pieceChars pieces with
  | nil =>
    rw [hchars] at hend
    exact absurd hend hback
  | cons c cs =>
    have hne : pieceChars back ≠ [] := fun hnil => hback (by rw [hnil]; trivial)
    have hquestion := head_pieceChars_ne hfit hkind hne hchars
    rw [hchars, List.cons_append] at hend
    by_cases hfeed : c = '\n'
    · exact ⟨[], cs ++ pieceChars back, by rw [hfeed]; rfl, .inl rfl⟩
    · have hc : c = '\r' := by
        unfold IsLineEnd at hend
        split at hend <;> simp_all
      subst hc
      obtain ⟨rest, rfl⟩ := List.head?_eq_some_iff.1 (hreturn cs hchars)
      exact ⟨['\r'], rest ++ pieceChars back, rfl, .inr rfl⟩

private theorem EndsAtReturn.cons {chars gap after : List Char} (h : EndsAtReturn after gap)
    (hchars : IsGapBefore chars (gap ++ after)) : EndsAtReturn after (chars ++ gap) := by
  obtain ⟨front, body, back, rfl, hfront, hbody, hline, hback⟩ := h
  refine ⟨chars ++ front, body, back, by simp, .cons ?_ hfront, hbody, hline, hback⟩
  simpa using hchars

/-- A scan that finds its member goes over the pieces in its way, unless a line comment among them ends
where the scan does not end it. -/
theorem scan_over_pieces (hmember : r.member.toList.head? = some '\x7b') (hfit : AllFit (pieces ++ back))
    (hkind : ∀ piece ∈ pieces, ∀ kind, piece.kind ≠ .token kind) (hback : ¬ IsLineEnd (pieceChars back))
    (hreturn : r.skipComments = true → ¬ EndsAtReturn (pieceChars back) (pieceChars pieces))
    (h : scan r matched offset (encode (pieceChars (pieces ++ back))) = .ok stop) :
    scan r matched (offset + byteSize (pieceChars pieces)) (encode (pieceChars back)) = .ok stop := by
  induction pieces generalizing offset with
  | nil => exact h
  | cons piece pieces ih =>
    rw [List.forall_mem_cons] at hkind
    rw [List.cons_append, pieceChars_cons] at h
    rw [pieceChars_cons] at hreturn ⊢
    have hfirst : Fits piece.kind piece.chars (pieceChars (pieces ++ back)) := hfit.1
    cases hpiece : piece.kind with
    | token kind => exact absurd hpiece (hkind.1 kind)
    | fault fault =>
      rw [hpiece] at hfirst
      rcases hfirst with hnil | ⟨c, cs, hchars, hc⟩
      · have hempty : pieceChars back = [] := by
          rw [pieceChars_append, List.append_eq_nil_iff] at hnil
          exact hnil.2
        exact absurd (by rw [hempty]; trivial) hback
      · rw [hchars] at h
        exact absurd h (scan_foreign_ne_ok hmember hc _)
    | gap =>
      rw [hpiece] at hfirst
      have hgap : IsGapBefore piece.chars (pieceChars (pieces ++ back)) := hfirst
      have hgap' : IsGapBefore piece.chars (pieceChars pieces ++ pieceChars back) := by
        rwa [pieceChars_append] at hgap
      have hnext := scan_over_gap hmember hgap (fun hskip hline => ?_) h
      · have hrest := ih hfit.2 hkind.2 (fun hskip hends => hreturn hskip (hends.cons hgap')) hnext
        rw [byteSize_append, ← Nat.add_assoc]
        exact hrest
      · refine feedsLine_of_isLineEnd hfit.2 hkind.2 hback (isLineEnd_of_isLineComment hgap hline) ?_
        intro cs hcs
        rw [hcs] at hgap' hreturn
        refine Decidable.byContradiction fun hhead => ?_
        exact hreturn hskip ⟨[], piece.chars, cs, rfl, .nil, hgap', hline, hhead⟩

end Pieces

end CaretContext.Php
