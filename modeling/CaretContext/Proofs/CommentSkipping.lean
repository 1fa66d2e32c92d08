import CaretContext.Proofs.ScanAnswer

/-!
# Skipping comments

A scan that stops at comments and one that skips them take the same steps up to the first comment. There
the first one fails and the second goes on, so skipping comments changes no answer that was found without.
Offsets are handed out as numbers of 32 bits, which changes none of them in a text that is no longer.
-/

namespace CaretContext

namespace MemberScan

/-- The place that an answer is about: the end of the member, or the place of the failure. -/
def reach : Except ScanError Nat → Nat
  | .ok stop => stop
  | .error cause => cause.offset

def BeginsComment (source : Source) (offset : Nat) : Prop :=
  ∃ comment rest, source.bytes.drop offset = comment ++ rest ∧ IsComment comment rest

private theorem le_reach_scan (r : Request) (matched offset : Nat) (bytes : List UInt8) :
    offset ≤ reach (scan r matched offset bytes) := by
  obtain ⟨passed, text, rest, -, -, -, -, hanswer⟩ := exists_stopped_run r matched offset bytes
  rw [hanswer]
  cases hreach : answer r (matched + passed.length) (offset + text.length) rest with
  | ok stop =>
    obtain ⟨-, -, rfl⟩ := answer_eq_ok hreach
    simp only [reach]
    omega
  | error cause =>
    simp only [reach, offset_of_answer hreach]
    omega

section Comments

variable {source : Source} {operator : AccessOperator} {member : String} {matched offset : Nat}
  {bytes gap passed text rest : List UInt8}

private theorem IsGapBefore.with_comments (h : IsGapBefore false gap rest) : IsGapBefore true gap rest := by
  induction h with
  | nil => exact .nil
  | blank hb _ ih => exact .blank hb ih
  | comment hfalse => cases hfalse

private theorem IsRun.with_comments (h : IsRun false passed text rest) : IsRun true passed text rest := by
  induction h with
  | gap hgap => exact .gap hgap.with_comments
  | operator hgap _ ih => exact .operator hgap.with_comments ih

private theorem exists_isComment_of_step? {moved : Nat × Nat}
    (h : step? ⟨source, operator, member, false⟩ matched bytes = none)
    (h' : step? ⟨source, operator, member, true⟩ matched bytes = some moved) :
    ∃ comment rest, bytes = comment ++ rest ∧ IsComment comment rest := by
  cases bytes with
  | nil => simp [step?] at h'
  | cons b rest =>
    cases hcomment : commentLength? (b :: rest) with
    | some n =>
      obtain ⟨comment, after, hbytes, -, hiscomment⟩ := exists_isComment hcomment
      exact ⟨comment, after, hbytes, hiscomment⟩
    | none =>
      have hsame : step? ⟨source, operator, member, true⟩ matched (b :: rest) =
          step? ⟨source, operator, member, false⟩ matched (b :: rest) := by
        simp only [step?, hcomment, ite_self]
        rfl
      rw [hsame, h] at h'
      cases h'

private theorem answer_skipComments (skip skip' : Bool) :
    answer ⟨source, operator, member, skip⟩ matched offset bytes =
      answer ⟨source, operator, member, skip'⟩ matched offset bytes := by
  cases bytes <;> rfl

/-- A comment is in the way of a scan that does not skip it: it is no part of the operator, and a member in
braces does not begin like it. -/
theorem answer_comment {r : Request} {comment : List UInt8} (h : IsComment comment rest)
    (hmember : r.member.toList.head? = some '\x7b') :
    (∃ found, answer r matched offset (comment ++ rest) = .error (.unexpectedToken found offset)) ∨
      answer r matched offset (comment ++ rest) = .error (.nameMismatch r.member offset) := by
  obtain ⟨b, body, rfl, hb⟩ := h.exists_cons
  have hoperator : b ∉ r.expected := by
    intro hmem
    rcases hb with rfl | rfl <;> simpa using mem_expected hmem
  have hbrace : (encode r.member.toList).isPrefixOf (b :: (body ++ rest)) = false := by
    obtain ⟨tail, htail⟩ := List.head?_eq_some_iff.1 hmember
    have hbytes : encode r.member.toList = 123 :: encode tail := by
      rw [htail]
      rfl
    rw [hbytes]
    rcases hb with rfl | rfl <;> rfl
  rw [List.cons_append, answer, settle_of_not_mem hoperator]
  by_cases hmatched : matched < r.expected.length
  · rw [if_pos hmatched]
    exact .inl ⟨_, rfl⟩
  · rw [if_neg hmatched, hbrace]
    exact .inr rfl

/-- Two scans that differ in what they do with comments agree, or the one that stops at them fails at a
comment and the other comes further. -/
theorem memberEnd_eq_or_beginsComment (source : Source) (operator : AccessOperator) (start : Nat)
    (hmember : member.toList.head? = some '\x7b') :
    memberEnd ⟨source, operator, member, false⟩ start = memberEnd ⟨source, operator, member, true⟩ start ∨
    ∃ place, BeginsComment source place ∧
      ((∃ found, memberEnd ⟨source, operator, member, false⟩ start = .error (.unexpectedToken found place)) ∨
        memberEnd ⟨source, operator, member, false⟩ start = .error (.nameMismatch member place)) ∧
      place < reach (memberEnd ⟨source, operator, member, true⟩ start) := by
  obtain ⟨passed, text, rest, hrun⟩ := exists_isLongestRun ⟨source, operator, member, false⟩ start
  have hstrict := hrun.memberEnd_eq
  -- The scan that skips comments goes over the same run first.
  have hlenient : memberEnd ⟨source, operator, member, true⟩ start =
      scan ⟨source, operator, member, true⟩ passed.length (start + text.length) rest := by
    have hpassed : passed <+: (⟨source, operator, member, true⟩ : Request).expected.drop 0 := hrun.inOrder
    have hbytes : source.bytes.drop start = text ++ rest := hrun.bytes
    rw [memberEnd, hbytes, scan_of_isRun hrun.run.with_comments hpassed, Nat.zero_add]
  cases hstep : step? ⟨source, operator, member, true⟩ passed.length rest with
  | none =>
    left
    rw [hstrict, hlenient, scan_of_step?_eq_none hstep]
    exact answer_skipComments false true
  | some moved =>
    right
    obtain ⟨comment, after, rfl, hcomment⟩ := exists_isComment_of_step? hrun.step?_eq_none hstep
    refine ⟨start + text.length, ⟨comment, after, hrun.drop_eq, hcomment⟩, ?_, ?_⟩
    · rw [hstrict]
      exact answer_comment hcomment hmember
    · have hfurther := le_reach_scan ⟨source, operator, member, true⟩ passed.length
        (start + text.length + comment.length) after
      have hpos := commentLength?_pos hcomment.commentLength?_append
      rw [hlenient, scan_of_step? (step?_comment rfl hcomment), List.drop_left]
      omega

end Comments

/-! ### Answers of 32 bits -/

private theorem inWord_eq_self {cause : ScanError} (h : cause.offset < UInt32.size) : cause.inWord = cause := by
  cases cause <;> rw [ScanError.offset] at h <;> rw [ScanError.inWord, Nat.mod_eq_of_lt h]

private theorem reach_memberEnd_le {r : Request} (hmember : r.member.toList ≠ []) (start : Nat) :
    reach (memberEnd r start) ≤ max start r.source.byteLength := by
  cases hend : memberEnd r start with
  | ok stop =>
    have hbounds := (isAccess_of_memberEnd hend).bounds hmember
    simp only [reach]
    omega
  | error cause =>
    obtain ⟨passed, text, rest, hrun⟩ := exists_isLongestRun r start
    rw [hrun.memberEnd_eq] at hend
    rw [reach, offset_of_answer hend]
    exact hrun.place_le

private theorem wordMemberEnd_eq {r : Request} {start : Nat} (hlength : r.source.byteLength < UInt32.size)
    (hstart : start < UInt32.size) (hmember : r.member.toList ≠ []) :
    wordMemberEnd r start = memberEnd r start := by
  have hreach := reach_memberEnd_le hmember start
  rw [wordMemberEnd]
  cases hend : memberEnd r start with
  | ok stop =>
    simp only [hend, reach] at hreach ⊢
    rw [Nat.mod_eq_of_lt (by omega)]
  | error cause =>
    simp only [hend, reach] at hreach ⊢
    rw [inWord_eq_self (by omega)]

-- The comments are between the receiver and the operator, inside the operator, and in front of the member.
example :
    let source := Source.ofString "$a /* -> */ - // >\n > # y\n \x7b$m\x7d()"
    (memberEnd ⟨source, .arrow, "\x7b$m\x7d", false⟩ 2).toOption = none ∧
      (memberEnd ⟨source, .arrow, "\x7b$m\x7d", true⟩ 2).toOption = some 31 := by
  decide +kernel

end MemberScan

/-! ### Invocations -/

open MemberScan

/-- The text of the dynamic member, for a construct that has one. -/
def Kind.dynamicText? : Kind Node → Option String
  | .methodCall _ _ (.expression text _) _ => some text
  | .propertyAccess _ _ (.expression text _) => some text
  | _ => none

/-- Whether every dynamic member in a forest is in braces. -/
def HasBracedMembers (roots : List Node) : Prop :=
  ∀ node ∈ nodesIn roots, ∀ text, node.kind.dynamicText? = some text → text.toList.head? = some '\x7b'

private theorem resolveInvocation_eq_or_dynamic (roots : List Node) (source : Source) (offset : Nat)
    (skip skip' : Bool) :
    resolveInvocation roots source offset skip = resolveInvocation roots source offset skip' ∨
      ∃ call receiver operator text value arguments, innermostCall? roots offset = some call ∧
        call.kind = .methodCall receiver operator (.expression text value) arguments := by
  unfold resolveInvocation
  cases hcall : innermostCall? roots offset with
  | none => exact .inl rfl
  | some call =>
    cases hkind : call.kind with
    | methodCall receiver operator member arguments =>
      cases member with
      | expression text value => exact .inr ⟨call, receiver, operator, text, value, arguments, rfl, hkind⟩
      | named name span => exact .inl (by simp [describeCall, hkind, parameterListStart])
      | «variable» node => exact .inl (by simp [describeCall, hkind, parameterListStart])
    | _ => exact .inl (by simp [describeCall, hkind])

private theorem resolveInvocation_with_comments {roots : List Node} {source : Source} {offset : Nat}
    {found : Option Invocation} (hroots : HasBracedMembers roots)
    (h : resolveInvocation roots source offset false = .ok found) :
    resolveInvocation roots source offset true = .ok found := by
  rcases resolveInvocation_eq_or_dynamic roots source offset false true with
    hsame | ⟨call, receiver, operator, text, value, arguments, hcall, hkind⟩
  · rw [← hsame, h]
  · have hbraced : text.toList.head? = some '\x7b' :=
      hroots call (mem_of_innermostCall? hcall) text (by rw [hkind]; rfl)
    rw [resolveInvocation_dynamic hcall hkind] at h ⊢
    rcases MemberScan.memberEnd_eq_or_beginsComment source operator receiver.span.stop hbraced with
      hsame | ⟨place, -, ⟨found, hfail⟩ | hfail, -⟩
    · rw [← hsame, h]
    · rw [hfail] at h
      cases h
    · rw [hfail] at h
      cases h

/-- Skipping comments changes the answer of a scan only where the scan without fails at a comment, if the
offsets of the text fit into 32 bits. It changes no invocation that is found without. -/
theorem skipping_comments_conservative (source : Source) :
    (source.byteLength < UInt32.size → ∀ operator member start, start < UInt32.size →
      member.toList.head? = some '\x7b' →
      wordMemberEnd ⟨source, operator, member, false⟩ start =
        wordMemberEnd ⟨source, operator, member, true⟩ start ∨
      ∃ place, BeginsComment source place ∧
        ((∃ found, wordMemberEnd ⟨source, operator, member, false⟩ start =
            .error (.unexpectedToken found place)) ∨
          wordMemberEnd ⟨source, operator, member, false⟩ start = .error (.nameMismatch member place)) ∧
        place < reach (wordMemberEnd ⟨source, operator, member, true⟩ start)) ∧
    ∀ roots offset found, HasBracedMembers roots →
      resolveInvocation roots source offset false = .ok found →
      resolveInvocation roots source offset true = .ok found := by
  refine ⟨fun hlength operator member start hstart hmember => ?_,
    fun _ _ _ hroots h => resolveInvocation_with_comments hroots h⟩
  have hne : member.toList ≠ [] := by
    rintro hnil
    simp [hnil] at hmember
  have hword : ∀ skip, wordMemberEnd ⟨source, operator, member, skip⟩ start =
      memberEnd ⟨source, operator, member, skip⟩ start := fun _ => wordMemberEnd_eq hlength hstart hne
  rw [hword, hword]
  exact memberEnd_eq_or_beginsComment source operator start hmember

/-- A call without comments, and its operator and member once more behind one. -/
def accessTwice : Source := .ofString "$a->\x7b$m\x7d() /* x */->\x7b$m\x7d"

def accessCall : Node :=
  ⟨.methodCall ⟨.variable "a", ⟨0, 2⟩, []⟩ .arrow (.expression "\x7b$m\x7d" ⟨.variable "m", ⟨5, 7⟩, []⟩) [],
    ⟨0, 10⟩, []⟩

theorem skipping_comments_conservative_accessTwice :
    (∃ place, BeginsComment accessTwice place ∧
      place < reach (wordMemberEnd ⟨accessTwice, .arrow, "\x7b$m\x7d", true⟩ 10)) ∧
    resolveInvocation [accessCall] accessTwice 9 true =
      .ok (some ⟨none, .method, ["$a", "\x7b$m\x7d()"], 0, 8⟩) := by
  obtain ⟨hscan, hfound⟩ := skipping_comments_conservative accessTwice
  have hbraced : HasBracedMembers [accessCall] := by
    have hmembers : ∀ node ∈ nodesIn [accessCall],
        (node.kind.dynamicText?.all fun text => text.toList.head? = some '\x7b') = true := by decide +kernel
    intro node hnode text htext
    simpa [htext] using hmembers node hnode
  have hwithout : resolveInvocation [accessCall] accessTwice 9 false =
      .ok (some ⟨none, .method, ["$a", "\x7b$m\x7d()"], 0, 8⟩) := eq_ok_of_toOption (by decide +kernel)
  refine ⟨?_, hfound _ _ _ hbraced hwithout⟩
  rcases hscan (by decide) .arrow "\x7b$m\x7d" 10 (by decide) (by decide) with
    hsame | ⟨place, hcomment, -, hlt⟩
  · have hdiffer : (wordMemberEnd ⟨accessTwice, .arrow, "\x7b$m\x7d", false⟩ 10).toOption ≠
        (wordMemberEnd ⟨accessTwice, .arrow, "\x7b$m\x7d", true⟩ 10).toOption := by decide +kernel
    exact absurd (congrArg Except.toOption hsame) hdiffer
  · exact ⟨place, hcomment, hlt⟩

/-! ### Beyond 32 bits -/

/-- A comment, an operator and a member behind other text. -/
def commentBehind (before : List Char) : Source := ⟨before ++ "/* x */->\x7b$m\x7d".toList⟩

private theorem drop_bytes_commentBehind (before : List Char) :
    (commentBehind before).bytes.drop (byteSize before) = encode "/* x */->\x7b$m\x7d".toList :=
  drop_bytes rfl

private theorem memberEnd_commentBehind_strict (before : List Char) :
    ∃ found, memberEnd ⟨commentBehind before, .arrow, "\x7b$m\x7d", false⟩ (byteSize before) =
      .error (.unexpectedToken found (byteSize before)) := by
  have hbytes : encode "/* x */->\x7b$m\x7d".toList = 47 :: encode "* x */->\x7b$m\x7d".toList := rfl
  have hexpected : Request.expected ⟨commentBehind before, .arrow, "\x7b$m\x7d", false⟩ = [45, 62] := by
    have htext : encode AccessOperator.arrow.text.toList = [45, 62] := by decide
    exact htext
  rw [memberEnd, drop_bytes_commentBehind, hbytes, scan_stop (by decide) rfl, if_neg (by simp [hexpected]),
    settle_of_not_mem (by simp [hexpected]), if_pos (by simp [hexpected])]
  exact ⟨_, rfl⟩

private theorem memberEnd_commentBehind_lenient (before : List Char) :
    memberEnd ⟨commentBehind before, .arrow, "\x7b$m\x7d", true⟩ (byteSize before) =
      .ok (byteSize before + 13) := by
  have hgap : IsGap (encode "/* x */".toList) := by
    have hblock : IsGap (47 :: 42 :: ([32, 120, 32] ++ 42 :: 47 :: [])) := .block (by decide) .nil
    exact hblock
  have hmember : encode "\x7b$m\x7d".toList = 123 :: [36, 109, 125] := by decide
  rw [memberEnd_eq_ok_iff rfl hmember]
  refine ⟨13, rfl, ?_⟩
  rw [drop_bytes_commentBehind]
  exact Leads.of_gaps hgap .nil (encode "\x7b$m\x7d".toList) (encode "->".toList) []

/-- The comment begins at one of the last offsets of 32 bits, and the member ends beyond them. -/
def farComment : Source := commentBehind (List.replicate 4294967290 ' ')

theorem wordMemberEnd_farComment :
    ¬ (wordMemberEnd ⟨farComment, .arrow, "\x7b$m\x7d", false⟩ 4294967290 =
        wordMemberEnd ⟨farComment, .arrow, "\x7b$m\x7d", true⟩ 4294967290 ∨
      ∃ place, ((∃ found, wordMemberEnd ⟨farComment, .arrow, "\x7b$m\x7d", false⟩ 4294967290 =
            .error (.unexpectedToken found place)) ∨
          wordMemberEnd ⟨farComment, .arrow, "\x7b$m\x7d", false⟩ 4294967290 =
            .error (.nameMismatch "\x7b$m\x7d" place)) ∧
        place < reach (wordMemberEnd ⟨farComment, .arrow, "\x7b$m\x7d", true⟩ 4294967290)) := by
  have hsize : byteSize (List.replicate 4294967290 ' ') = 4294967290 := byteSize_replicate _ _
  obtain ⟨found, hstrict⟩ := memberEnd_commentBehind_strict (List.replicate 4294967290 ' ')
  have hlenient := memberEnd_commentBehind_lenient (List.replicate 4294967290 ' ')
  rw [hsize, ← farComment] at hstrict hlenient
  have hfails : wordMemberEnd ⟨farComment, .arrow, "\x7b$m\x7d", false⟩ 4294967290 =
      .error (.unexpectedToken found 4294967290) := by
    rw [wordMemberEnd, hstrict]
    rfl
  have hwraps : wordMemberEnd ⟨farComment, .arrow, "\x7b$m\x7d", true⟩ 4294967290 = .ok 7 := by
    rw [wordMemberEnd, hlenient]
    rfl
  rw [hfails, hwraps]
  rintro (hsame | ⟨place, ⟨found', hplace⟩ | hplace, hlt⟩)
  · cases hsame
  · cases hplace
    exact absurd hlt (by decide)
  · cases hplace

end CaretContext
