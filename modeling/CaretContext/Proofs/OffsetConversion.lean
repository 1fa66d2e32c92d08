import CaretContext.Proofs.Boundary
import CaretContext.Source.Offset
import Mathlib.Order.Fin.Basic
import Mathlib.Order.GaloisConnection.Basic

/-!
# Characters against bytes

The offset in bytes of a number of characters and the number of characters that fit into an offset in
bytes are the two sides of a Galois connection. What else holds of the conversions follows from it: both
are monotone, going to bytes and back loses nothing inside the text, and going to characters and back
rounds down to a character boundary. So the characters that fit are also those counted by stepping back
from the offset to a boundary.
-/

namespace CaretContext

theorem length_le_byteSize (cs : List Char) : cs.length ≤ byteSize cs := by
  induction cs with
  | nil => exact Nat.le_refl _
  | cons c cs ih =>
    have hpos := c.utf8Size_pos
    rw [List.length_cons, byteSize]
    omega

private theorem byteSize_le_of_isPrefix {as bs : List Char} (h : as <+: bs) : byteSize as ≤ byteSize bs := by
  obtain ⟨rest, rfl⟩ := h
  rw [byteSize_append]
  omega

private theorem fitting_le_length (cs : List Char) (offset : Nat) : fitting cs offset ≤ cs.length := by
  fun_induction fitting cs offset with
  | case1 => exact Nat.le_refl _
  | case2 c cs offset hfits ih =>
    rw [List.length_cons]
    omega
  | case3 => exact Nat.zero_le _

/-- Some leading characters end at or before an offset exactly when no more of them are wanted than fit
there. -/
theorem byteSize_take_le_iff {cs : List Char} {count offset : Nat} (h : count ≤ cs.length) :
    byteSize (cs.take count) ≤ offset ↔ count ≤ fitting cs offset := by
  induction cs generalizing count offset with
  | nil =>
    obtain rfl : count = 0 := by simpa using h
    simp [byteSize]
  | cons c cs ih =>
    cases count with
    | zero => simp [byteSize]
    | succ count =>
      have hcount : count ≤ cs.length := by simpa using h
      rw [List.take_succ_cons, byteSize, fitting]
      split
      · rename_i hfits
        have hrest : byteSize (cs.take count) ≤ offset - c.utf8Size ↔
            count ≤ fitting cs (offset - c.utf8Size) := ih hcount
        omega
      · omega

namespace Source

variable (source : Source)

private theorem byteOffset_lt_succ {count : Nat} (h : count < source.chars.length) :
    source.byteOffset count < source.byteOffset (count + 1) := by
  have hpos := byteSize_cons_pos source.chars[count] []
  rw [byteOffset, byteOffset, List.take_succ_eq_append_getElem h, byteSize_append]
  omega

private theorem monotone_byteOffset : Monotone source.byteOffset := by
  intro count count' h
  exact byteSize_le_of_isPrefix (List.take_prefix_take_left h)

theorem isBoundary_byteOffset (count : Nat) : IsBoundary source (source.byteOffset count) :=
  ⟨source.chars.take count, source.chars.drop count, (List.take_append_drop _ _).symm, rfl⟩

private theorem exists_byteOffset_eq {offset : Nat} (h : IsBoundary source offset) :
    ∃ count ≤ source.chars.length, source.byteOffset count = offset := by
  obtain ⟨before, after, hchars, hsize⟩ := h
  refine ⟨before.length, by simp [hchars], ?_⟩
  rw [byteOffset, hchars, List.take_left, hsize]

theorem charOffset_le_length (offset : Nat) : source.charOffset offset ≤ source.chars.length :=
  fitting_le_length _ _

private theorem byteOffset_le_iff {count offset : Nat} (h : count ≤ source.chars.length) :
    source.byteOffset count ≤ offset ↔ count ≤ source.charOffset offset :=
  byteSize_take_le_iff h

private theorem galoisConnection_byteOffset :
    GaloisConnection (fun count : Fin (source.chars.length + 1) => source.byteOffset count)
      (fun offset => ⟨source.charOffset offset, Nat.lt_succ_of_le (source.charOffset_le_length offset)⟩) := by
  intro count offset
  exact source.byteOffset_le_iff (Nat.le_of_lt_succ count.isLt)

private theorem monotone_charOffset : Monotone source.charOffset := by
  intro offset offset' h
  exact source.galoisConnection_byteOffset.monotone_u h

private theorem byteOffset_charOffset_le (offset : Nat) :
    source.byteOffset (source.charOffset offset) ≤ offset :=
  source.galoisConnection_byteOffset.l_u_le offset

theorem charOffset_byteOffset_of_le {count : Nat} (h : count ≤ source.chars.length) :
    source.charOffset (source.byteOffset count) = count := by
  have hle : count ≤ source.charOffset (source.byteOffset count) :=
    (source.byteOffset_le_iff h).1 (Nat.le_refl _)
  refine Nat.le_antisymm ?_ hle
  by_contra hlt
  -- One character more would fit into the same bytes.
  have hmore : count < source.chars.length := by
    have hlength := source.charOffset_le_length (source.byteOffset count)
    omega
  have hfits : source.byteOffset (count + 1) ≤ source.byteOffset count :=
    (source.byteOffset_le_iff hmore).2 (by omega)
  have hgrows := source.byteOffset_lt_succ hmore
  omega

theorem charOffset_byteOffset (count : Nat) :
    source.charOffset (source.byteOffset count) = min count source.chars.length := by
  have hclamped : source.byteOffset count = source.byteOffset (min count source.chars.length) := by
    rw [byteOffset, byteOffset, ← List.take_eq_take_min]
  rw [hclamped]
  exact source.charOffset_byteOffset_of_le (Nat.min_le_right _ _)

/-- Going to characters and back rounds down to the boundary next below, inside the text. -/
theorem isGreatest_byteOffset_charOffset (offset : Nat) :
    IsGreatest {stop | IsBoundary source stop ∧ stop ≤ min offset source.byteLength}
      (source.byteOffset (source.charOffset offset)) := by
  have hboundary := source.isBoundary_byteOffset (source.charOffset offset)
  refine ⟨⟨hboundary, ?_⟩, ?_⟩
  · exact Nat.le_min.2 ⟨source.byteOffset_charOffset_le offset, hboundary.le_byteLength⟩
  · rintro stop ⟨hstop, hle⟩
    obtain ⟨count, hcount, rfl⟩ := source.exists_byteOffset_eq hstop
    have hfits : count ≤ source.charOffset offset :=
      (source.byteOffset_le_iff hcount).1 (Nat.le_trans hle (Nat.min_le_left _ _))
    exact source.monotone_byteOffset hfits

/-- Steps back, byte by byte, to an offset where the text can be cut. -/
def roundDown : Nat → Nat
  | 0 => 0
  | offset + 1 =>
    if (takeBytes? source.chars (offset + 1)).isSome then offset + 1 else roundDown offset

private theorem isSome_takeBytes?_iff {offset : Nat} :
    (takeBytes? source.chars offset).isSome = true ↔ IsBoundary source offset := by
  constructor
  · intro h
    obtain ⟨before, hbefore⟩ := Option.isSome_iff_exists.1 h
    obtain ⟨after, hchars, hsize⟩ := eq_append_of_takeBytes? hbefore
    exact ⟨before, after, hchars, hsize⟩
  · rintro ⟨before, after, hchars, rfl⟩
    rw [hchars, takeBytes?_append]
    rfl

private theorem isGreatest_roundDown (offset : Nat) :
    IsGreatest {stop | IsBoundary source stop ∧ stop ≤ offset} (source.roundDown offset) := by
  induction offset with
  | zero => exact ⟨⟨IsBoundary.zero source, Nat.le_refl _⟩, fun stop hstop => hstop.2⟩
  | succ offset ih =>
    rw [roundDown]
    split
    · rename_i hcut
      exact ⟨⟨source.isSome_takeBytes?_iff.1 hcut, Nat.le_refl _⟩, fun stop hstop => hstop.2⟩
    · rename_i hcut
      obtain ⟨⟨hboundary, hle⟩, hgreatest⟩ := ih
      refine ⟨⟨hboundary, Nat.le_succ_of_le hle⟩, ?_⟩
      rintro stop ⟨hstop, hstopLe⟩
      have hne : stop ≠ offset + 1 := by
        rintro rfl
        exact hcut (source.isSome_takeBytes?_iff.2 hstop)
      exact hgreatest ⟨hstop, by omega⟩

/-- The characters that fit are those in front of the boundary stepped back to from the offset, or from
the end of the text. -/
theorem count_before_roundDown (offset : Nat) :
    (takeBytes? source.chars (source.roundDown (min offset source.byteLength))).map List.length =
      some (source.charOffset offset) := by
  have hboundary : source.roundDown (min offset source.byteLength) =
      byteSize (source.chars.take (source.charOffset offset)) :=
    (source.isGreatest_roundDown _).unique (source.isGreatest_byteOffset_charOffset offset)
  have htake := takeBytes?_append (source.chars.take (source.charOffset offset))
    (source.chars.drop (source.charOffset offset))
  rw [List.take_append_drop] at htake
  rw [hboundary, htake, Option.map_some, List.length_take,
    Nat.min_eq_left (source.charOffset_le_length offset)]

private theorem charOffset_le (offset : Nat) : source.charOffset offset ≤ offset := by
  have hchars : source.charOffset offset ≤ source.byteOffset (source.charOffset offset) := by
    have hlength := length_le_byteSize (source.chars.take (source.charOffset offset))
    rwa [List.length_take, Nat.min_eq_left (source.charOffset_le_length offset)] at hlength
  exact Nat.le_trans hchars (source.byteOffset_charOffset_le offset)

/-- Some leading characters end at or before an offset in bytes exactly when they are no more than the
offset counts. So both conversions are monotone, going to bytes can be taken back inside the text, and
going to characters and back rounds down to a character boundary. The characters counted are those in
front of the boundary stepped back to, and in a text whose length fits into 32 bits so do all results. -/
theorem byteOffset_charOffset_adjoint :
    (∀ count ≤ source.chars.length, ∀ offset,
      source.byteOffset count ≤ offset ↔ count ≤ source.charOffset offset) ∧
    Monotone source.byteOffset ∧ Monotone source.charOffset ∧
    (∀ count, source.charOffset (source.byteOffset count) = min count source.chars.length) ∧
    (∀ offset, IsGreatest {stop | IsBoundary source stop ∧ stop ≤ min offset source.byteLength}
      (source.byteOffset (source.charOffset offset))) ∧
    (∀ count, IsBoundary source (source.byteOffset count)) ∧
    (∀ offset, source.charOffset offset ≤ offset) ∧
    (∀ offset, (takeBytes? source.chars (source.roundDown (min offset source.byteLength))).map
      List.length = some (source.charOffset offset)) ∧
    (source.byteLength < UInt32.size → ∀ count offset,
      source.byteOffset count < UInt32.size ∧ source.charOffset offset < UInt32.size) := by
  refine ⟨fun count h offset => source.byteOffset_le_iff h, source.monotone_byteOffset,
    source.monotone_charOffset, source.charOffset_byteOffset, source.isGreatest_byteOffset_charOffset,
    source.isBoundary_byteOffset, source.charOffset_le, source.count_before_roundDown, ?_⟩
  intro hlength count offset
  have hbytes := (source.isBoundary_byteOffset count).le_byteLength
  have hchars := length_le_byteSize source.chars
  have hcount := source.charOffset_le_length offset
  rw [byteLength] at hbytes hlength
  omega

/-- The euro sign has the bytes 1, 2 and 3, so an offset at the last of them is behind one character. -/
theorem byteOffset_charOffset_euro :
    (2 ≤ ("a€b".toList).length ∧ ¬ 2 ≤ charOffset ⟨"a€b".toList⟩ 3) ∧
    byteLength ⟨"a€b".toList⟩ < UInt32.size ∧ byteOffset ⟨"a€b".toList⟩ 7 < UInt32.size := by
  obtain ⟨hadjoint, -, -, -, -, -, -, -, hword⟩ := byteOffset_charOffset_adjoint ⟨"a€b".toList⟩
  have htwo : 2 ≤ ("a€b".toList).length := by decide
  have hlength : byteLength ⟨"a€b".toList⟩ < UInt32.size := by decide
  refine ⟨⟨htwo, fun hle => ?_⟩, hlength, (hword hlength 7 0).1⟩
  have hbytes := (hadjoint 2 htwo 3).2 hle
  exact absurd hbytes (by decide)

end Source

end CaretContext
