import CaretContext.Proofs.MemberText
import CaretContext.Proofs.Php.Pieces

/-!
# The gaps of the text and those of the scan

Gaps between tokens are cut by characters, while the scan for a member goes over bytes and has rules of
its own: it takes neither a vertical tab nor a form feed for white space, and its line comments do not
end at a carriage return. Away from these, what is a gap to one is a gap to the other.
-/

namespace CaretContext

namespace MemberScan

private theorem closeLength?_of_not_mem {bytes : List UInt8} (h : 42 ∉ bytes) (rest : List UInt8) :
    closeLength? (bytes ++ rest) = (closeLength? rest).map (· + bytes.length) := by
  induction bytes with
  | nil => simp
  | cons b bytes ih =>
    simp only [List.mem_cons, not_or] at h
    rw [List.cons_append, closeLength?, ih h.2, Option.map_map]
    · congr 1
    · exact fun _ hb _ => h.1 hb.symm

private theorem closeLength?_encode {cs : List Char} (h : Php.blockCommentLength? cs = some cs.length) :
    closeLength? (encode cs) = some (encode cs).length := by
  fun_induction Php.blockCommentLength? cs with
  | case1 cs =>
    have hnil : cs = [] := by simpa using h
    subst hnil
    decide
  | case2 c cs hclose ih =>
    have hcs : Php.blockCommentLength? cs = some cs.length := by simpa using h
    have ih := ih hcs
    rw [encode_cons]
    by_cases hmem : 42 ∈ String.utf8EncodeChar c
    · rcases utf8EncodeChar_cases c with ⟨b, hbytes, hnat⟩ | hbeyond
      · have hb : b = 42 := by simpa [hbytes, eq_comm] using hmem
        have hc : c = '*' := Char.toNat_inj.1 (by rw [← hnat, hb]; rfl)
        subst hb
        rw [hbytes, List.singleton_append, closeLength?, ih]
        · simp
        · intro rest _ hrest
          cases cs with
          | nil => simp at hrest
          | cons d cs =>
            have hd := head_utf8EncodeChar (b := 47) (by rw [← encode_cons, hrest]; rfl) (by decide)
            exact hclose cs hc (by rw [show d = '/' from Char.toNat_inj.1 hd])
      · have hle := hbeyond 42 hmem
        simp at hle
    · rw [closeLength?_of_not_mem hmem, ih]
      simp [Nat.add_comm]
  | case3 => simp at h

end MemberScan

namespace Php

open MemberScan

/-- Whether the scan sees line ends and white space where a reader of the text does. -/
structure IsPlain (chars : List Char) : Prop where
  verticalTab : '\x0b' ∉ chars
  formFeed : '\x0c' ∉ chars
  lineReturn : ∀ before after, chars = before ++ '\r' :: after → after.head? = some '\n'

private theorem IsPlain.of_append {as bs : List Char} (h : IsPlain (as ++ bs)) : IsPlain bs where
  verticalTab hmem := h.verticalTab (by simp [hmem])
  formFeed hmem := h.formFeed (by simp [hmem])
  lineReturn before after hbs := h.lineReturn (as ++ before) after (by simp [hbs])

private theorem isGap_of_spaces {chars rest : List Char} (hspaces : ∀ c ∈ chars, isSpace c = true)
    (hplain : IsPlain (chars ++ rest)) (hrest : IsGap (encode rest)) :
    IsGap (encode (chars ++ rest)) := by
  induction chars with
  | nil => exact hrest
  | cons c chars ih =>
    have hplain' : IsPlain ([c] ++ (chars ++ rest)) := hplain
    have hgap := ih (fun d hd => hspaces d (by simp [hd])) hplain'.of_append
    have hc := hspaces c (by simp)
    have htab : c ≠ '\x0b' := fun h => hplain.verticalTab (by simp [h])
    have hfeed : c ≠ '\x0c' := fun h => hplain.formFeed (by simp [h])
    simp only [isSpace, Bool.or_eq_true, decide_eq_true_eq, htab, hfeed, or_false] at hc
    rw [List.cons_append, encode_cons]
    rcases hc with ((rfl | rfl) | rfl) | rfl <;> exact .blank (by decide) hgap

private theorem exists_lineFeed {body tail back : List Char} (hbody : '\n' ∉ body)
    (hend : IsLineEnd (tail ++ back)) (hback : ¬ IsLineEnd back) (hplain : IsPlain tail)
    (hgap : IsGap (encode tail)) :
    ∃ mid rest, encode tail = mid ++ 10 :: rest ∧ 10 ∉ encode body ++ mid ∧ (mid = [] ∨ mid = [13]) ∧
      IsGap rest := by
  have hbody := lineFeed_not_mem_encode hbody
  cases tail with
  | nil => exact absurd hend hback
  | cons c tail =>
    by_cases hfeed : c = '\n'
    · subst hfeed
      exact ⟨[], encode tail, rfl, by simpa using hbody, .inl rfl, hgap.of_blank (by decide)⟩
    by_cases hreturn : c = '\r'
    · subst hreturn
      obtain ⟨rest, rfl⟩ := List.head?_eq_some_iff.1 (hplain.lineReturn [] tail rfl)
      have hrest : IsGap (encode ('\n' :: rest)) := hgap.of_blank (by decide)
      exact ⟨[13], encode rest, rfl, by simpa using hbody, .inr rfl, hrest.of_blank (by decide)⟩
    · -- The end of the program also ends a line comment, but no gap goes on with it.
      have hquestion : c = '?' := by
        unfold IsLineEnd at hend
        split at hend <;> simp_all
      subst hquestion
      have hbytes : IsGap (63 :: encode tail) := hgap
      cases hbytes with
      | blank hb => simp [MemberScan.isBlank] at hb

theorem utf8EncodeChar_slash : String.utf8EncodeChar '/' = [47] := by decide

theorem isGap_block {body : List Char} (hbody : blockCommentLength? body = some body.length) :
    IsGap (encode ('/' :: '*' :: body)) := by
  obtain ⟨bytes, rest, hbytes, hlength, hclose⟩ := closeLength?_eq_some (closeLength?_encode hbody)
  have hnil : rest = [] := by
    have hsize := congrArg List.length hbytes
    simp only [List.length_append, List.length_cons] at hsize
    exact List.length_eq_zero_iff.1 (by omega)
  have hstar : String.utf8EncodeChar '*' = [42] := by decide
  have hcomment := IsGap.block hclose .nil
  simpa [utf8EncodeChar_slash, hstar, hbytes, hnil] using hcomment

/-- What follows the sharp of a comment begins no attribute, over the end of the line as well. -/
theorem head_encode_ne_bracket {body : List Char} {mid : List UInt8} (hhead : body.head? ≠ some '[')
    (hmid : mid = [] ∨ mid = [13]) : (encode body ++ mid).head? ≠ some 91 := by
  intro hbracket
  cases body with
  | nil => rcases hmid with rfl | rfl <;> simp at hbracket
  | cons d body =>
    rw [encode_cons, List.append_assoc] at hbracket
    have hd : d = '[' := Char.toNat_inj.1 (head_utf8EncodeChar hbracket (by decide))
    exact hhead (by simp [hd])

/-- The gaps between two tokens are a gap to the scan, where nothing is in them that it sees in its own
way. -/
theorem isGap_of_allFit {pieces back : List Lexeme} (hfit : AllFit (pieces ++ back))
    (hgap : ∀ piece ∈ pieces, piece.kind = .gap) (hplain : IsPlain (pieceChars pieces))
    (hback : ¬ IsLineEnd (pieceChars back)) : IsGap (encode (pieceChars pieces)) := by
  induction pieces with
  | nil => exact .nil
  | cons piece pieces ih =>
    rw [pieceChars_cons] at hplain ⊢
    have hrest := ih hfit.2 (fun p hp => hgap p (by simp [hp])) hplain.of_append
    have hpiece : IsGapBefore piece.chars (pieceChars (pieces ++ back)) := by
      have hfirst := hfit.1
      rw [hgap piece (by simp)] at hfirst
      exact hfirst
    rw [pieceChars_append] at hpiece
    generalize piece.chars = chars at hplain hpiece
    -- What a line comment takes of the pieces behind it was a gap, and so is what it leaves of them.
    cases hpiece with
    | spaces hspaces => exact isGap_of_spaces hspaces hplain hrest
    | @block body _ hbody =>
      rw [encode_append]
      exact (isGap_block hbody).append hrest
    | @line body _ hline hend =>
      obtain ⟨mid, rest, hmid, hbody, -, hleft⟩ :=
        exists_lineFeed hline.lineFeed hend hback hplain.of_append hrest
      have hcomment := IsGap.line hbody hleft
      simpa [utf8EncodeChar_slash, hmid] using hcomment
    | @hash body _ hline hhead hend =>
      obtain ⟨mid, rest, hmid, hbody, hshape, hleft⟩ :=
        exists_lineFeed hline.lineFeed hend hback hplain.of_append hrest
      have hsharp : String.utf8EncodeChar '#' = [35] := by decide
      have hcomment := IsGap.hash hbody (head_encode_ne_bracket hhead hshape) hleft
      simpa [hsharp, hmid] using hcomment

end Php

end CaretContext
