import CaretContext.Proofs.InnermostCall
import CaretContext.Proofs.ScanRun

/-!
# What a scan answers

The answer of a scan is decided by the byte behind its longest run and by how much of the operator the
run has passed. The member is found where the run has passed all of the operator and the member follows.
Everywhere else the scan fails, and the place it points at is the one behind the run.
-/

namespace CaretContext.MemberScan

/-- The longest run from an offset on, with the operator's bytes that it passes and the bytes behind it. -/
structure IsLongestRun (r : Request) (start : Nat) (passed text rest : List UInt8) : Prop where
  bytes : r.source.bytes.drop start = text ++ rest
  run : IsRun r.skipComments passed text rest
  inOrder : passed <+: r.expected
  longest : ∀ passed' text' rest', r.source.bytes.drop start = text' ++ rest' →
    IsRun r.skipComments passed' text' rest' → passed' <+: r.expected → text'.length ≤ text.length

/-- What the scan from `start` answers when its longest run stops at `place` and has passed `matched` bytes
of the operator. -/
structure AnswersAt (r : Request) (start matched place : Nat) : Prop where
  ended : r.source.byteLength ≤ place → memberEnd r start = .error (.unexpectedEnd place r.member)
  beyond : r.source.byteLength < start → place = start
  repeated : ∀ b, r.source.bytes[place]? = some b → b ∈ r.expected → r.expected.idxOf b < matched →
    memberEnd r start = .error (.repeatedOperator (Char.ofUInt8 b) place)
  misplaced : ∀ b, r.source.bytes[place]? = some b → b ∈ r.expected → matched ≤ r.expected.idxOf b →
    memberEnd r start = .error (.misplacedOperator (Char.ofUInt8 b) place r.operator)
  /-- The character is the one that starts there, or the byte itself inside a character. -/
  unexpected : ∀ b, r.source.bytes[place]? = some b → b ∉ r.expected → matched < r.expected.length →
    ∃ found, memberEnd r start = .error (.unexpectedToken found place) ∧
      ((∃ before after, r.source.chars = before ++ found :: after ∧ byteSize before = place) ∨
        ¬ IsBoundary r.source place ∧ found.toNat = b.toNat)
  mismatched : ∀ b, r.source.bytes[place]? = some b → b ∉ r.expected → matched = r.expected.length →
    ¬ encode r.member.toList <+: r.source.bytes.drop place →
    memberEnd r start = .error (.nameMismatch r.member place)
  found : ∀ b, r.source.bytes[place]? = some b → b ∉ r.expected → matched = r.expected.length →
    encode r.member.toList <+: r.source.bytes.drop place →
    memberEnd r start = .ok (place + byteSize r.member.toList)

/-- Whether the bytes between two offsets are the operator and the member, with a gap in front of each byte
of the operator and in front of the member. -/
def IsAccess (r : Request) (start stop : Nat) : Prop :=
  ∃ text rest, r.source.bytes.drop start = text ++ (encode r.member.toList ++ rest) ∧
    stop = start + text.length + byteSize r.member.toList ∧
    IsRun r.skipComments r.expected text (encode r.member.toList ++ rest)

section Settle

variable {r : Request} {matched offset : Nat} {b : UInt8} {bytes : List UInt8}

private theorem idxOf?_of_mem (h : b ∈ r.expected) : r.expected.idxOf? b = some (r.expected.idxOf b) :=
  List.findIdx?_eq_some_iff_findIdx_eq.2 ⟨List.idxOf_lt_length_of_mem h, rfl⟩

private theorem settle_of_mem (h : b ∈ r.expected) :
    settle r matched offset b bytes =
      .error (if r.expected.idxOf b < matched then .repeatedOperator (Char.ofUInt8 b) offset
        else .misplacedOperator (Char.ofUInt8 b) offset r.operator) := by
  rw [settle, idxOf?_of_mem h]
  dsimp only
  split <;> rfl

theorem settle_of_not_mem (h : b ∉ r.expected) :
    settle r matched offset b bytes =
      if matched < r.expected.length then
        .error (.unexpectedToken ((r.source.charAt? offset).getD (Char.ofUInt8 b)) offset)
      else if (encode r.member.toList).isPrefixOf bytes then
        .ok (offset + byteSize r.member.toList)
      else .error (.nameMismatch r.member offset) := by
  rw [settle, List.idxOf?_eq_none_iff.2 h]

end Settle

section Answer

variable {r : Request} {start stop matched offset : Nat} {b : UInt8} {passed text rest bytes : List UInt8}
  {cause : ScanError}

theorem answer_eq_ok (h : answer r matched offset bytes = .ok stop) :
    r.expected.length ≤ matched ∧ encode r.member.toList <+: bytes ∧
      stop = offset + byteSize r.member.toList := by
  cases bytes with
  | nil => simp [answer] at h
  | cons b rest => exact settle_eq_ok h

theorem offset_of_answer (h : answer r matched offset bytes = .error cause) : cause.offset = offset := by
  cases bytes with
  | nil =>
    simp only [answer, Except.error.injEq] at h
    subst h
    rfl
  | cons b rest =>
    rw [answer] at h
    by_cases hb : b ∈ r.expected
    · rw [settle_of_mem hb, Except.error.injEq] at h
      subst h
      split <;> rfl
    · rw [settle_of_not_mem hb] at h
      split at h
      · cases h
        rfl
      · split at h <;> cases h
        rfl

theorem exists_isLongestRun (r : Request) (start : Nat) :
    ∃ passed text rest, IsLongestRun r start passed text rest := by
  obtain ⟨passed, text, rest, hbytes, hrun, hpassed, hstuck, -⟩ :=
    exists_stopped_run r 0 start (r.source.bytes.drop start)
  refine ⟨passed, text, rest, hbytes, hrun, hpassed, ?_⟩
  intro passed' text' rest' hbytes' hrun' hpassed'
  exact hrun.length_le hpassed hstuck hrun' hpassed' (hbytes.symm.trans hbytes')

/-- Behind the longest run no step is left: it would make the run longer. -/
theorem IsLongestRun.step?_eq_none (h : IsLongestRun r start passed text rest) :
    step? r passed.length rest = none := by
  cases hstep : step? r passed.length rest with
  | none => rfl
  | some moved =>
    obtain ⟨n, matched⟩ := moved
    obtain ⟨passed', text', rest', rfl, rfl, hpos, hrun, hpassed', -⟩ := isRun_of_step? hstep
    obtain ⟨left, hleft⟩ := h.inOrder
    rw [← hleft, List.drop_left] at hpassed'
    have hlonger := h.longest (passed ++ passed') (text ++ text') rest' (by simp [h.bytes])
      (h.run.append hrun) (hleft ▸ (List.prefix_append_right_inj passed).2 hpassed')
    rw [List.length_append] at hlonger
    omega

theorem IsLongestRun.memberEnd_eq (h : IsLongestRun r start passed text rest) :
    memberEnd r start = answer r passed.length (start + text.length) rest := by
  have hpassed : passed <+: r.expected.drop 0 := h.inOrder
  rw [memberEnd, h.bytes, scan_of_isRun h.run hpassed, Nat.zero_add,
    scan_of_step?_eq_none h.step?_eq_none]

theorem IsLongestRun.drop_eq (h : IsLongestRun r start passed text rest) :
    r.source.bytes.drop (start + text.length) = rest := by
  rw [← List.drop_drop, h.bytes, List.drop_left]

private theorem IsLongestRun.eq_cons (h : IsLongestRun r start passed text rest)
    (hb : r.source.bytes[start + text.length]? = some b) : ∃ tail, rest = b :: tail := by
  rw [← List.head?_drop, h.drop_eq] at hb
  exact List.head?_eq_some_iff.1 hb

/-- Where no character starts at the place of a byte, the place is inside a character. -/
theorem not_isBoundary_of_charAt? (hb : r.source.bytes[offset]? = some b)
    (h : r.source.charAt? offset = none) : ¬ IsBoundary r.source offset := by
  rintro ⟨before, after, hchars, rfl⟩
  cases after with
  | nil =>
    rw [List.append_nil] at hchars
    rw [Source.bytes, hchars, List.getElem?_eq_none (Nat.le_of_eq (length_encode before))] at hb
    cases hb
  | cons c after =>
    rw [Source.charAt?_eq_some_iff.2 ⟨before, after, hchars, rfl⟩] at h
    cases h

private theorem IsLongestRun.answersAt (h : IsLongestRun r start passed text rest) :
    AnswersAt r start passed.length (start + text.length) := by
  have hend := h.memberEnd_eq
  constructor
  case ended =>
    intro hle
    have hrest : rest = [] := by
      rw [← h.drop_eq, List.drop_eq_nil_iff, Source.bytes, length_encode]
      exact hle
    rw [hend, hrest]
    rfl
  case beyond =>
    intro hlt
    have hnone := h.bytes
    rw [List.drop_of_length_le (by rw [Source.bytes, length_encode]; exact Nat.le_of_lt hlt)] at hnone
    rw [(List.append_eq_nil_iff.1 hnone.symm).1]
    rfl
  case repeated =>
    intro b hb hmem hlt
    obtain ⟨tail, rfl⟩ := h.eq_cons hb
    rw [hend, answer, settle_of_mem hmem, if_pos hlt]
  case misplaced =>
    intro b hb hmem hle
    obtain ⟨tail, rfl⟩ := h.eq_cons hb
    rw [hend, answer, settle_of_mem hmem, if_neg (Nat.not_lt.2 hle)]
  case unexpected =>
    intro b hb hmem hlt
    obtain ⟨tail, rfl⟩ := h.eq_cons hb
    rw [answer, settle_of_not_mem hmem, if_pos hlt] at hend
    refine ⟨_, hend, ?_⟩
    cases hchar : r.source.charAt? (start + text.length) with
    | some c => exact .inl (Source.charAt?_eq_some_iff.1 hchar)
    | none => exact .inr ⟨not_isBoundary_of_charAt? hb hchar, rfl⟩
  case mismatched =>
    intro b hb hmem hmatched hmember
    obtain ⟨tail, rfl⟩ := h.eq_cons hb
    rw [h.drop_eq, ← List.isPrefixOf_iff_prefix] at hmember
    rw [hend, answer, settle_of_not_mem hmem, if_neg (by omega), if_neg hmember]
  case found =>
    intro b hb hmem hmatched hmember
    obtain ⟨tail, rfl⟩ := h.eq_cons hb
    rw [h.drop_eq, ← List.isPrefixOf_iff_prefix] at hmember
    rw [hend, answer, settle_of_not_mem hmem, if_neg (by omega), if_pos hmember]

theorem IsLongestRun.place_le (h : IsLongestRun r start passed text rest) :
    start + text.length ≤ max start r.source.byteLength := by
  have hlength := congrArg List.length h.bytes
  rw [List.length_drop, List.length_append, Source.bytes, length_encode] at hlength
  rw [Source.byteLength]
  omega

end Answer

/-- A scan answers for the place where its longest run stops. -/
theorem memberEnd_answersAt (r : Request) (start : Nat) :
    (∃ passed text rest, IsLongestRun r start passed text rest) ∧
    (∀ passed text rest, IsLongestRun r start passed text rest →
      AnswersAt r start passed.length (start + text.length)) ∧
    ∀ cause, memberEnd r start = .error cause →
      start ≤ cause.offset ∧ cause.offset ≤ max start r.source.byteLength := by
  refine ⟨exists_isLongestRun r start, fun _ _ _ h => h.answersAt, fun cause hcause => ?_⟩
  obtain ⟨passed, text, rest, h⟩ := exists_isLongestRun r start
  rw [h.memberEnd_eq] at hcause
  rw [offset_of_answer hcause]
  exact ⟨Nat.le_add_right _ _, h.place_le⟩

/-! ### Acceptance -/

section Acceptance

variable {r : Request} {start stop : Nat}

theorem isAccess_of_memberEnd (h : memberEnd r start = .ok stop) : IsAccess r start stop := by
  obtain ⟨passed, text, rest, hrun⟩ := exists_isLongestRun r start
  rw [hrun.memberEnd_eq] at h
  obtain ⟨hmatched, ⟨after, hafter⟩, hstop⟩ := answer_eq_ok h
  have hpassed : passed = r.expected := hrun.inOrder.eq_of_length_le hmatched
  subst hpassed hafter
  exact ⟨text, after, hrun.bytes, hstop, hrun.run⟩

private theorem IsAccess.memberEnd_eq {b : UInt8} {tail : List UInt8} (h : IsAccess r start stop)
    (hmember : encode r.member.toList = b :: tail) (hblank : isBlank b = false) (hslash : b ≠ 47)
    (hhash : b ≠ 35) (hoperator : b ∉ r.expected) : memberEnd r start = .ok stop := by
  obtain ⟨text, rest, hbytes, rfl, hrun⟩ := h
  have hstuck : step? r (0 + r.expected.length) (encode r.member.toList ++ rest) = none := by
    rw [hmember, List.cons_append]
    simp [step?, hblank, commentLength?_eq_none hslash hhash]
  have hfront : (encode r.member.toList).isPrefixOf (encode r.member.toList ++ rest) = true := by
    simp
  rw [memberEnd, hbytes, scan_of_isRun hrun List.prefix_rfl, scan_of_step?_eq_none hstuck]
  rw [hmember, List.cons_append] at hfront ⊢
  rw [answer, settle_of_not_mem hoperator, if_neg (by omega), hmember, if_pos hfront]

theorem IsAccess.bounds (h : IsAccess r start stop) (hmember : r.member.toList ≠ []) :
    start + r.expected.length + byteSize r.member.toList ≤ stop ∧ stop ≤ r.source.byteLength := by
  obtain ⟨text, rest, hbytes, rfl, hrun⟩ := h
  have hpassed := hrun.passed_sublist.length_le
  have hlength := congrArg List.length hbytes
  simp only [List.length_drop, List.length_append, Source.bytes, length_encode] at hlength
  have hpos : 0 < byteSize r.member.toList := by
    obtain ⟨c, cs, hcs⟩ := List.exists_cons_of_ne_nil hmember
    rw [hcs]
    exact byteSize_cons_pos c cs
  rw [Source.byteLength]
  omega

end Acceptance

/-- A scan for a member that begins like neither a gap nor an operator accepts exactly what is written as an
access, which ends at one place only. -/
theorem memberEnd_eq_ok_iff_isAccess (r : Request) (start : Nat) {b : UInt8} {tail : List UInt8}
    (hmember : encode r.member.toList = b :: tail) (hblank : isBlank b = false) (hslash : b ≠ 47)
    (hhash : b ≠ 35) (hoperator : b ∉ r.expected) :
    (∀ stop, memberEnd r start = .ok stop ↔ IsAccess r start stop) ∧
    (∀ stop stop', IsAccess r start stop → IsAccess r start stop' → stop = stop') ∧
    ∀ stop, IsAccess r start stop →
      start + r.expected.length + byteSize r.member.toList ≤ stop ∧ stop ≤ r.source.byteLength := by
  have haccess : ∀ stop, IsAccess r start stop → memberEnd r start = .ok stop := fun _ h =>
    h.memberEnd_eq hmember hblank hslash hhash hoperator
  refine ⟨fun stop => ⟨isAccess_of_memberEnd, haccess stop⟩, fun stop stop' h h' => ?_, fun stop h => ?_⟩
  · have hsame := (haccess stop h).symm.trans (haccess stop' h')
    exact Except.ok.inj hsame
  · apply h.bounds
    rintro hnil
    simp [hnil] at hmember

/-- An operator in two parts, with bytes of it in the comments around them. -/
def splitOperator : Request :=
  ⟨.ofString "$a /* -> */ - // >\n > #->\n \x7b$m\x7d()", .arrow, "\x7b$m\x7d", true⟩

theorem memberEnd_splitOperator :
    memberEnd splitOperator 2 = .ok 31 ∧ IsAccess splitOperator 2 31 ∧
      ∀ stop, IsAccess splitOperator 2 stop → stop = 31 := by
  have hmember : encode splitOperator.member.toList = 123 :: [36, 109, 125] := by decide
  have hbrace : (123 : UInt8) ∉ splitOperator.expected := by decide
  obtain ⟨haccepts, hunique, -⟩ :=
    memberEnd_eq_ok_iff_isAccess splitOperator 2 hmember (by decide) (by decide) (by decide) hbrace
  have hfound : memberEnd splitOperator 2 = .ok 31 := eq_ok_of_toOption (by decide +kernel)
  have haccess := (haccepts 31).1 hfound
  exact ⟨hfound, haccess, fun stop hstop => hunique stop 31 hstop haccess⟩

end CaretContext.MemberScan
