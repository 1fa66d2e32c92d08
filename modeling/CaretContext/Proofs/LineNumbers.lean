import CaretContext.Proofs.OffsetConversion

/-!
# Line numbers

Lines are counted over bytes, and an offset may cut a character in two. No part of a longer encoding is a
line feed, so nothing is lost or gained inside of a character: the line of an offset is that of the
character boundary below it, and line feeds can as well be counted by characters. A line number has 32 bits,
which are enough for every text whose length has, but for one of line feeds only.
-/

namespace CaretContext

private theorem count_lineFeed_eq_zero {c : Char} {bytes : List UInt8}
    (hbytes : bytes <+: String.utf8EncodeChar c)
    (h : c ≠ '\n') : bytes.count 10 = 0 := by
  rw [List.count_eq_zero]
  intro hmem
  have hencode : 10 ∈ encode [c] := by simpa using hbytes.subset hmem
  exact lineFeed_not_mem_encode (by simpa using h.symm) hencode

private theorem count_lineFeed_utf8EncodeChar (c : Char) :
    (String.utf8EncodeChar c).count 10 = [c].count '\n' := by
  by_cases h : c = '\n'
  · subst h
    decide
  · rw [count_lineFeed_eq_zero (List.prefix_refl _) h]
    simp [h]

/-- The line feeds among the first bytes are those among the characters that fit into them. -/
theorem count_lineFeed_take_encode (cs : List Char) (offset : Nat) :
    ((encode cs).take offset).count 10 = (cs.take (fitting cs offset)).count '\n' := by
  fun_induction fitting cs offset with
  | case1 offset => simp
  | case2 c cs offset hfits ih =>
    have hlength := String.length_utf8EncodeChar c
    have hhead : (String.utf8EncodeChar c).take offset = String.utf8EncodeChar c :=
      List.take_of_length_le (by omega)
    rw [encode_cons, List.take_append, hhead, hlength, List.count_append, ih,
      count_lineFeed_utf8EncodeChar, List.take_succ_cons, ← List.count_append, List.singleton_append]
  | case3 c cs offset hcut =>
    -- The offset cuts the first character, so that is longer than one byte and no line feed.
    have hlength := String.length_utf8EncodeChar c
    have hinside : offset ≤ (String.utf8EncodeChar c).length := by omega
    rw [encode_cons, List.take_append_of_le_length hinside, List.take_zero, List.count_nil]
    by_cases h : c = '\n'
    · have hzero : offset = 0 := by
        rw [h] at hcut
        have hone : '\n'.utf8Size = 1 := by decide
        omega
      simp [hzero]
    · exact count_lineFeed_eq_zero (List.take_prefix _ _) h

namespace Source

variable (source : Source)

private theorem lineOf_eq (offset : Nat) : source.lineOf offset =
    (1 + (source.chars.take (source.charOffset offset)).count '\n') % UInt32.size := by
  rw [lineOf, bytes, count_lineFeed_take_encode, charOffset, Nat.add_comm]

private theorem lineOf_byteOffset (count : Nat) : source.lineOf (source.byteOffset count) =
    (1 + (source.chars.take (min count source.chars.length)).count '\n') % UInt32.size := by
  rw [lineOf_eq, charOffset_byteOffset]

/-- So many line feeds that a line number has no room for them are all that a text can be. -/
theorem eq_replicate_of_le_count (h : source.byteLength < UInt32.size) {count : Nat}
    (hcount : UInt32.size - 1 ≤ (source.chars.take count).count '\n') :
    UInt32.size - 1 ≤ count ∧ source.chars = List.replicate (UInt32.size - 1) '\n' := by
  have htaken : (source.chars.take count).count '\n' ≤ (source.chars.take count).length :=
    List.count_le_length
  have hsub := (List.take_sublist count source.chars).count_le '\n'
  have hall : source.chars.count '\n' ≤ source.chars.length := List.count_le_length
  have hlength : source.chars.length ≤ source.byteLength := length_le_byteSize source.chars
  rw [List.length_take] at htaken
  refine ⟨by omega, List.eq_replicate_iff.2 ⟨by omega, fun c hc => ?_⟩⟩
  have hfull : source.chars.count '\n' = source.chars.length := by omega
  exact (List.count_eq_length.1 hfull c hc).symm

/-- The line of a number of characters is one more than the line feeds among them, and the line of a byte
offset, also inside of a character or past the end, is that of the characters it counts. In a text whose
length fits into 32 bits this is right everywhere but at the end of the longest text of line feeds only. -/
theorem lineOf_byteOffset_charOffset (h : source.byteLength < UInt32.size) :
    (∀ count, count < UInt32.size - 1 ∨ source.chars ≠ List.replicate (UInt32.size - 1) '\n' →
      source.lineOf (source.byteOffset count) =
        1 + (source.chars.take (min count source.chars.length)).count '\n') ∧
    (∀ offset, source.lineOf offset = source.lineOf (source.byteOffset (source.charOffset offset))) ∧
    ∀ count offset, source.byteOffset count < UInt32.size ∧ source.charOffset offset < UInt32.size := by
  refine ⟨fun count hcount => ?_, fun offset => ?_, fun count offset => ?_⟩
  · rw [lineOf_byteOffset]
    by_cases hroom : 1 + (source.chars.take (min count source.chars.length)).count '\n' < UInt32.size
    · exact Nat.mod_eq_of_lt hroom
    · have hfull : UInt32.size - 1 ≤ (source.chars.take (min count source.chars.length)).count '\n' := by
        omega
      obtain ⟨hle, hchars⟩ := source.eq_replicate_of_le_count h hfull
      exact absurd hchars (hcount.resolve_left (by omega))
  · have hsame := source.charOffset_byteOffset_of_le (source.charOffset_le_length offset)
    rw [lineOf_eq, lineOf_eq, hsame]
  · have hbytes := (source.isBoundary_byteOffset count).le_byteLength
    have hchars : source.chars.length ≤ source.byteLength := length_le_byteSize source.chars
    have hcount := source.charOffset_le_length offset
    exact ⟨by omega, by omega⟩

/-- The euro sign has the bytes 1, 2 and 3, so both line feeds are before offset 6 and one before 3. -/
theorem lineOf_byteOffset_charOffset_euro :
    byteLength ⟨"\n€\n€".toList⟩ < UInt32.size ∧
    lineOf ⟨"\n€\n€".toList⟩ 3 = lineOf ⟨"\n€\n€".toList⟩ 1 ∧
    lineOf ⟨"\n€\n€".toList⟩ (byteOffset ⟨"\n€\n€".toList⟩ 3) = 3 ∧
    byteOffset ⟨"\n€\n€".toList⟩ 3 < UInt32.size := by
  have hlength : byteLength ⟨"\n€\n€".toList⟩ < UInt32.size := by decide
  obtain ⟨hcount, hoffset, hword⟩ := lineOf_byteOffset_charOffset ⟨"\n€\n€".toList⟩ hlength
  exact ⟨hlength, hoffset 3, hcount 3 (.inl (by decide)), (hword 3 0).1⟩

/-- The longest text of line feeds has one line more than there are numbers of 32 bits. -/
def onlyLineFeeds : Source := ⟨List.replicate (UInt32.size - 1) '\n'⟩

theorem lineOf_onlyLineFeeds : onlyLineFeeds.byteLength < UInt32.size ∧
    onlyLineFeeds.lineOf (onlyLineFeeds.byteOffset (UInt32.size - 1)) ≠
      1 + (onlyLineFeeds.chars.take (min (UInt32.size - 1) onlyLineFeeds.chars.length)).count '\n' := by
  have hlength : onlyLineFeeds.chars.length = UInt32.size - 1 := List.length_replicate
  have hbytes : onlyLineFeeds.byteLength = UInt32.size - 1 := by
    rw [byteLength, onlyLineFeeds, byteSize_replicate]
    rfl
  have hcount : (onlyLineFeeds.chars.take (UInt32.size - 1)).count '\n' = UInt32.size - 1 := by
    rw [onlyLineFeeds, List.take_replicate, Nat.min_self, List.count_replicate_self]
  have hpos : 0 < UInt32.size := by decide
  refine ⟨by omega, ?_⟩
  rw [lineOf_byteOffset, hlength, Nat.min_self, hcount, Nat.add_sub_cancel' (by omega), Nat.mod_self]
  omega

end Source

end CaretContext
