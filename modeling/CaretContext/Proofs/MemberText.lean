import CaretContext.Call.MemberScan

/-!
# What a scan for a member accepts

With comments skipped, the scan comes to a member exactly when the bytes of the operator and then the
member stand in the text, with gaps in front of each. A gap is white space and comments; a line comment
goes up to a line feed, which has to be there.
-/

namespace CaretContext.MemberScan

/-- Bytes that the scan skips. -/
inductive IsGap : List UInt8 → Prop
  | nil : IsGap []
  | blank {b : UInt8} {rest : List UInt8} : isBlank b = true → IsGap rest → IsGap (b :: rest)
  | block {body rest : List UInt8} : ¬ [42, 47] <:+: body ++ [42] → IsGap rest →
      IsGap (47 :: 42 :: (body ++ 42 :: 47 :: rest))
  | line {body rest : List UInt8} : 10 ∉ body → IsGap rest → IsGap (47 :: 47 :: (body ++ 10 :: rest))
  | hash {body rest : List UInt8} : 10 ∉ body → body.head? ≠ some 91 → IsGap rest →
      IsGap (35 :: (body ++ 10 :: rest))

/-- Whether the bytes of the operator and the member follow, each after a gap, up to the end of the
member `n` bytes further on. -/
inductive Leads (member : List UInt8) : List UInt8 → List UInt8 → Nat → Prop
  | member {gap rest : List UInt8} : IsGap gap →
      Leads member [] (gap ++ (member ++ rest)) (gap.length + member.length)
  | operator {b : UInt8} {operator gap rest : List UInt8} {n : Nat} : IsGap gap →
      Leads member operator rest n → Leads member (b :: operator) (gap ++ b :: rest) (gap.length + 1 + n)

theorem IsGap.append {gap gap' : List UInt8} (h : IsGap gap) (h' : IsGap gap') :
    IsGap (gap ++ gap') := by
  induction h with
  | nil => simpa using h'
  | blank hb _ ih => simpa using IsGap.blank hb ih
  | block hbody _ ih => simpa using IsGap.block hbody ih
  | line hbody _ ih => simpa using IsGap.line hbody ih
  | hash hbody hhead _ ih => simpa using IsGap.hash hbody hhead ih

theorem IsGap.of_blank {b : UInt8} {rest : List UInt8} (h : IsGap (b :: rest)) (hb : isBlank b = true) :
    IsGap rest := by
  cases h with
  | blank _ hrest => exact hrest
  | block => simp [isBlank] at hb
  | line => simp [isBlank] at hb
  | hash => simp [isBlank] at hb

private theorem Leads.after_gap {member operator bytes gap : List UInt8} {n : Nat} (hgap : IsGap gap)
    (h : Leads member operator bytes n) : Leads member operator (gap ++ bytes) (gap.length + n) := by
  cases h with
  | @member gap' rest hgap' =>
    have hleads : Leads member [] (gap ++ gap' ++ (member ++ rest)) _ := .member (hgap.append hgap')
    simpa [Nat.add_assoc] using hleads
  | @operator b operator gap' rest n hgap' hrest =>
    have hleads := Leads.operator (b := b) (hgap.append hgap') hrest
    simpa [Nat.add_assoc] using hleads

theorem Leads.of_gaps {gap gap' : List UInt8} (hgap : IsGap gap) (hgap' : IsGap gap')
    (member operator rest : List UInt8) :
    Leads member operator (gap ++ (operator ++ (gap' ++ (member ++ rest))))
      (gap.length + (operator.length + (gap'.length + member.length))) := by
  apply Leads.after_gap hgap
  induction operator with
  | nil =>
    rw [List.nil_append, List.length_nil, Nat.zero_add]
    exact .member hgap'
  | cons b operator ih =>
    have hleads := Leads.operator (b := b) .nil ih
    simpa [Nat.add_assoc, Nat.add_comm, Nat.add_left_comm] using hleads

/-! ### Comments -/

theorem closeLength?_append {body : List UInt8} (h : ¬ [42, 47] <:+: body ++ [42]) (rest : List UInt8) :
    closeLength? (body ++ 42 :: 47 :: rest) = some (body.length + 2) := by
  induction body with
  | nil => simp [closeLength?]
  | cons b body ih =>
    rw [List.cons_append, List.infix_cons_iff, not_or] at h
    have hfront : ∀ tail, b :: (body ++ 42 :: 47 :: rest) ≠ 42 :: 47 :: tail := by
      intro tail heq
      apply h.1
      cases body with
      | nil => simp at heq
      | cons c body => simp_all
    rw [List.cons_append, closeLength?, ih h.2]
    · simp
    · exact fun tail hb htail => hfront tail (by rw [hb, htail])

theorem closeLength?_eq_some {bytes : List UInt8} {n : Nat} (h : closeLength? bytes = some n) :
    ∃ body rest, bytes = body ++ 42 :: 47 :: rest ∧ n = body.length + 2 ∧
      ¬ [42, 47] <:+: body ++ [42] := by
  induction bytes generalizing n with
  | nil => simp [closeLength?] at h
  | cons b bytes ih =>
    by_cases hclose : ∃ rest, b = 42 ∧ bytes = 47 :: rest
    · obtain ⟨rest, rfl, rfl⟩ := hclose
      have hn : n = 2 := by simpa [closeLength?] using h.symm
      refine ⟨[], rest, rfl, by simp [hn], ?_⟩
      rintro ⟨before, after, heq⟩
      have hlength := congrArg List.length heq
      simp at hlength
      omega
    · rw [closeLength?] at h
      · obtain ⟨m, hm, rfl⟩ := Option.map_eq_some_iff.1 h
        obtain ⟨body, rest, rfl, rfl, hbody⟩ := ih hm
        refine ⟨b :: body, rest, rfl, by simp, ?_⟩
        rw [List.cons_append, List.infix_cons_iff]
        rintro (hfront | hlater)
        · cases body with
          | nil => simp at hfront
          | cons c body =>
            simp at hfront
            exact hclose ⟨_, hfront.1.symm, by rw [← hfront.2, List.cons_append]⟩
        · exact hbody hlater
      · exact fun rest hb hrest => hclose ⟨rest, hb, hrest⟩

theorem lineLength_append {body : List UInt8} (h : 10 ∉ body) (rest : List UInt8) :
    lineLength (body ++ rest) = body.length + lineLength rest := by
  have hbody : ∀ b ∈ body, (b != 10) = true := by
    intro b hb
    simpa using fun heq : b = 10 => h (heq ▸ hb)
  rw [lineLength, List.takeWhile_append_of_pos hbody, List.length_append, ← lineLength]

theorem lineLength_feed (rest : List UInt8) : lineLength (10 :: rest) = 0 := by simp [lineLength]

theorem commentLength?_hash {bytes : List UInt8} (h : bytes.head? ≠ some 91) :
    commentLength? (35 :: bytes) = some (lineLength bytes + 1) := by
  cases bytes with
  | nil => rfl
  | cons b bytes =>
    have hb : b ≠ 91 := by simpa using h
    simp [commentLength?, hb]

private theorem gap_of_commentLength? {bytes : List UInt8} {n : Nat} (h : commentLength? bytes = some n) :
    bytes.length ≤ n ∨ ∃ gap rest, bytes = gap ++ rest ∧ gap ≠ [] ∧ IsGap gap := by
  have hline : ∀ bytes : List UInt8, lineLength bytes = bytes.length ∨
      ∃ body rest, bytes = body ++ 10 :: rest ∧ 10 ∉ body := by
    intro bytes
    by_cases hfeed : 10 ∈ bytes
    · exact .inr (List.eq_append_cons_of_mem hfeed)
    · have hlength := lineLength_append hfeed []
      simp only [List.append_nil] at hlength
      exact .inl hlength
  unfold commentLength? at h
  split at h
  · obtain ⟨m, hm, rfl⟩ := Option.map_eq_some_iff.1 h
    obtain ⟨body, rest, rfl, -, hbody⟩ := closeLength?_eq_some hm
    exact .inr ⟨_, rest, by simp, by simp, IsGap.block hbody .nil⟩
  · rename_i bytes
    simp only [Option.some.injEq] at h
    rcases hline bytes with hlength | ⟨body, rest, rfl, hbody⟩
    · left
      simp only [List.length_cons]
      omega
    · exact .inr ⟨_, rest, by simp, by simp, IsGap.line hbody .nil⟩
  · simp at h
  · rename_i bytes hattribute
    simp only [Option.some.injEq] at h
    rcases hline bytes with hlength | ⟨body, rest, rfl, hbody⟩
    · left
      simp only [List.length_cons]
      omega
    · have hhead : body.head? ≠ some 91 := by
        intro hhead
        obtain ⟨tail, rfl⟩ := List.head?_eq_some_iff.1 hhead
        exact hattribute _ rfl
      exact .inr ⟨_, rest, by simp, by simp, IsGap.hash hbody hhead .nil⟩
  · simp at h

/-! ### Steps of the scan -/

section Scan

variable {r : Request} {matched offset stop n : Nat} {b : UInt8} {bytes rest gap : List UInt8}

theorem scan_blank (h : isBlank b = true) :
    scan r matched offset (b :: rest) = scan r matched (offset + 1) rest := by
  rw [scan, if_pos h]

/-- What is skipped behind white space is a comment, if comments are to be skipped. -/
theorem scan_skip (hb : isBlank b = false)
    (h : (if r.skipComments then commentLength? (b :: rest) else none) = some n) :
    scan r matched offset (b :: rest) = scan r matched (offset + n) ((b :: rest).drop n) := by
  rw [scan, if_neg (by simp [hb])]
  split <;> simp_all

theorem scan_stop (hb : isBlank b = false)
    (h : (if r.skipComments then commentLength? (b :: rest) else none) = none) :
    scan r matched offset (b :: rest) =
      if r.expected[matched]? = some b then scan r (matched + 1) (offset + 1) rest
      else settle r matched offset b (b :: rest) := by
  rw [scan, if_neg (by simp [hb])]
  split <;> simp_all

private theorem scan_comment (hskip : r.skipComments = true) (hb : isBlank b = false)
    (h : commentLength? (b :: rest) = some n) :
    scan r matched offset (b :: rest) = scan r matched (offset + n) ((b :: rest).drop n) :=
  scan_skip hb (by rw [if_pos hskip, h])

private theorem scan_plain (hb : isBlank b = false) (h : commentLength? (b :: rest) = none) :
    scan r matched offset (b :: rest) =
      if r.expected[matched]? = some b then scan r (matched + 1) (offset + 1) rest
      else settle r matched offset b (b :: rest) :=
  scan_stop hb (by rw [h, ite_self])

theorem scan_gap (hskip : r.skipComments = true) (h : IsGap gap) :
    scan r matched offset (gap ++ rest) = scan r matched (offset + gap.length) rest := by
  induction h generalizing offset with
  | nil => simp
  | @blank b gap hb _ ih =>
    rw [List.cons_append, scan_blank hb, ih, List.length_cons]
    congr 1
    omega
  | @block body gap hbody _ ih =>
    have hlength : commentLength? (47 :: 42 :: (body ++ 42 :: 47 :: (gap ++ rest))) =
        some (body.length + 2 + 2) := by
      simp [commentLength?, closeLength?_append hbody]
    have hdrop : (47 :: 42 :: (body ++ 42 :: 47 :: (gap ++ rest))).drop (body.length + 2 + 2) =
        gap ++ rest := by
      simp
    simp only [List.cons_append, List.append_assoc, List.length_cons, List.length_append]
    rw [scan_comment hskip (by decide) hlength, hdrop, ih]
    congr 1
    omega
  | @line body gap hbody _ ih =>
    have hlength : commentLength? (47 :: 47 :: (body ++ 10 :: (gap ++ rest))) =
        some (body.length + 2) := by
      simp [commentLength?, lineLength_append hbody, lineLength_feed]
    have hdrop : (47 :: 47 :: (body ++ 10 :: (gap ++ rest))).drop (body.length + 2) =
        10 :: (gap ++ rest) := by
      simp
    simp only [List.cons_append, List.append_assoc, List.length_cons, List.length_append]
    rw [scan_comment hskip (by decide) hlength, hdrop, scan_blank (by decide), ih]
    congr 1
    omega
  | @hash body gap hbody hhead _ ih =>
    have hfront : (body ++ 10 :: (gap ++ rest)).head? ≠ some 91 := by
      cases body with
      | nil => simp
      | cons b body => simpa using hhead
    have hlength : commentLength? (35 :: (body ++ 10 :: (gap ++ rest))) = some (body.length + 1) := by
      simp [commentLength?_hash hfront, lineLength_append hbody, lineLength_feed]
    have hdrop : (35 :: (body ++ 10 :: (gap ++ rest))).drop (body.length + 1) =
        10 :: (gap ++ rest) := by
      simp
    simp only [List.cons_append, List.append_assoc, List.length_cons, List.length_append]
    rw [scan_comment hskip (by decide) hlength, hdrop, scan_blank (by decide), ih]
    congr 1
    omega

theorem mem_expected (h : b ∈ r.expected) : b = 45 ∨ b = 58 ∨ b = 62 ∨ b = 63 := by
  have hbytes : r.expected = [45, 62] ∨ r.expected = [63, 45, 62] ∨ r.expected = [58, 58] := by
    unfold Request.expected
    cases r.operator <;> decide
  rcases hbytes with hbytes | hbytes | hbytes <;> simp [hbytes] at h <;> grind

private theorem scan_operator (h : r.expected[matched]? = some b) :
    scan r matched offset (b :: rest) = scan r (matched + 1) (offset + 1) rest := by
  have hblank : isBlank b = false ∧ commentLength? (b :: rest) = none := by
    rcases mem_expected (List.mem_of_getElem? h) with rfl | rfl | rfl | rfl <;>
      simp [isBlank, commentLength?]
  rw [scan_plain hblank.1 hblank.2, if_pos h]

theorem scan_expected (offset : Nat) (rest : List UInt8) :
    scan r 0 offset (r.expected ++ rest) =
      scan r r.expected.length (offset + r.expected.length) rest := by
  have hleft : ∀ done left offset, r.expected = done ++ left →
      scan r done.length offset (left ++ rest) = scan r r.expected.length (offset + left.length) rest := by
    intro done left
    induction left generalizing done with
    | nil =>
      intro offset hexpected
      rw [hexpected, List.append_nil]
      rfl
    | cons b left ih =>
      intro offset hexpected
      have hnext : r.expected[done.length]? = some b := by
        rw [hexpected, List.getElem?_append_right (Nat.le_refl _), Nat.sub_self]
        rfl
      have hrest := ih (done ++ [b]) (offset + 1) (by simp [hexpected])
      rw [List.length_append, List.length_singleton] at hrest
      rw [List.cons_append, scan_operator hnext, hrest, List.length_cons, Nat.add_assoc,
        Nat.add_comm 1]
  exact hleft [] r.expected offset rfl

/-- A member in braces is found behind the whole operator. -/
theorem scan_member {member : List UInt8} (hmember : encode r.member.toList = 123 :: member)
    (hmatched : r.expected.length ≤ matched) :
    scan r matched offset (encode r.member.toList ++ rest) =
      .ok (offset + byteSize r.member.toList) := by
  have hnone : r.expected[matched]? = none := by simpa using hmatched
  have hbrace : r.expected.idxOf? 123 = none := by
    rw [List.idxOf?_eq_none_iff]
    intro hmem
    simpa using mem_expected hmem
  have hfront : (encode r.member.toList).isPrefixOf (encode r.member.toList ++ rest) = true := by
    simp
  rw [hmember, List.cons_append] at hfront ⊢
  rw [scan_plain (by decide) rfl, if_neg (by simp [hnone]), settle, hbrace]
  simp only
  rw [if_neg (by omega), hmember, if_pos hfront]

/-- A brace in front of what is left of the operator is in its way. -/
theorem scan_brace (h : matched < r.expected.length) :
    ∃ cause, scan r matched offset (123 :: rest) = .error cause := by
  have hbrace : 123 ∉ r.expected := by
    intro hmem
    simpa using mem_expected hmem
  have hnext : r.expected[matched]? ≠ some 123 := fun hsome => hbrace (List.mem_of_getElem? hsome)
  rw [scan_plain (by decide) rfl, if_neg hnext, settle, List.idxOf?_eq_none_iff.2 hbrace]
  simp only
  rw [if_pos h]
  exact ⟨_, rfl⟩

theorem settle_eq_ok (h : settle r matched offset b bytes = .ok stop) :
    r.expected.length ≤ matched ∧ encode r.member.toList <+: bytes ∧
      stop = offset + byteSize r.member.toList := by
  unfold settle at h
  split at h
  · split at h <;> simp at h
  · split at h
    · simp at h
    · rename_i hmatched
      split at h
      · rename_i hmember
        exact ⟨by omega, List.isPrefixOf_iff_prefix.1 hmember, by simpa using h.symm⟩
      · simp at h

private theorem leads_of_scan (hskip : r.skipComments = true) (h : scan r matched offset bytes = .ok stop) :
    ∃ n, stop = offset + n ∧
      Leads (encode r.member.toList) (r.expected.drop matched) bytes n := by
  induction hsize : bytes.length using Nat.strongRecOn generalizing bytes matched offset with
  | ind size ih =>
  -- A gap in front is skipped as a whole, so that a line comment is never cut from its line feed.
  have hgap : ∀ gap rest, bytes = gap ++ rest → gap ≠ [] → IsGap gap →
      ∃ n, stop = offset + n ∧ Leads (encode r.member.toList) (r.expected.drop matched) bytes n := by
    intro gap rest hbytes hne hgap
    have hpos : 0 < gap.length := List.length_pos_iff.2 hne
    rw [hbytes, scan_gap hskip hgap] at h
    have hrest : rest.length < size := by
      rw [← hsize, hbytes, List.length_append]
      omega
    obtain ⟨n, hstop, hleads⟩ := ih _ hrest h rfl
    exact ⟨gap.length + n, by omega, hbytes ▸ hleads.after_gap hgap⟩
  cases bytes with
  | nil => simp [scan] at h
  | cons b rest =>
    by_cases hblank : isBlank b = true
    · exact hgap [b] rest rfl (by simp) (.blank hblank .nil)
    · have hblank : isBlank b = false := by simpa using hblank
      cases hcomment : commentLength? (b :: rest) with
      | some n =>
        rcases gap_of_commentLength? hcomment with hend | ⟨gap, rest', hbytes, hne, hcommentGap⟩
        · rw [scan_comment hskip hblank hcomment, List.drop_of_length_le hend] at h
          simp [scan] at h
        · exact hgap gap rest' hbytes hne hcommentGap
      | none =>
        rw [scan_plain hblank hcomment] at h
        split at h
        · rename_i hnext
          have hrest : rest.length < size := by simp [← hsize]
          obtain ⟨n, hstop, hleads⟩ := ih _ hrest h rfl
          have hdrop : r.expected.drop matched = b :: r.expected.drop (matched + 1) := by
            obtain ⟨hlt, hb⟩ := List.getElem?_eq_some_iff.1 hnext
            rw [← hb]
            exact List.drop_eq_getElem_cons hlt
          rw [hdrop]
          have hfound := Leads.operator (b := b) .nil hleads
          exact ⟨1 + n, by omega, by simpa using hfound⟩
        · obtain ⟨hmatched, ⟨after, hafter⟩, hstop⟩ := settle_eq_ok h
          have hdrop : r.expected.drop matched = [] := List.drop_eq_nil_iff.2 hmatched
          have hfound : Leads (encode r.member.toList) [] ([] ++ (encode r.member.toList ++ after)) _ :=
            .member .nil
          rw [hdrop, ← hafter]
          exact ⟨_, by simpa [length_encode] using hstop, hfound⟩

private theorem scan_of_leads {member : List UInt8} (hskip : r.skipComments = true)
    (hmember : encode r.member.toList = 123 :: member)
    (h : Leads (encode r.member.toList) (r.expected.drop matched) bytes n) :
    scan r matched offset bytes = .ok (offset + n) := by
  generalize hoperator : r.expected.drop matched = operator at h
  induction h generalizing matched offset with
  | @member gap rest hgap =>
    have hmatched : r.expected.length ≤ matched := List.drop_eq_nil_iff.1 hoperator
    rw [scan_gap hskip hgap, scan_member hmember hmatched, length_encode, Nat.add_assoc]
  | @operator b operator gap rest n hgap _ ih =>
    have hnext : r.expected[matched]? = some b := by
      rw [← List.head?_drop, hoperator]
      rfl
    have hlater : r.expected.drop (matched + 1) = operator := by
      rw [← List.tail_drop, hoperator]
      rfl
    rw [scan_gap hskip hgap, scan_operator hnext, ih hlater]
    congr 1
    omega

theorem memberEnd_eq_ok_iff {member : List UInt8} (hskip : r.skipComments = true)
    (hmember : encode r.member.toList = 123 :: member) (start : Nat) :
    memberEnd r start = .ok stop ↔
      ∃ n, stop = start + n ∧
        Leads (encode r.member.toList) r.expected (r.source.bytes.drop start) n := by
  constructor
  · intro h
    exact leads_of_scan hskip h
  · rintro ⟨n, rfl, hleads⟩
    exact scan_of_leads hskip hmember hleads

end Scan

end CaretContext.MemberScan
