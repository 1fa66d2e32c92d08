import CaretContext.Proofs.Boundary
import CaretContext.Proofs.MemberText

/-!
# Runs of a scan

A run is what a scan goes over: gaps, and between them the bytes of the operator in their order. Gaps
are white space and, where they are skipped, comments. A scan goes over the longest run and answers
for the byte behind it, so both what it accepts and where it fails are read off that run.
-/

namespace CaretContext

def ScanError.offset : ScanError → Nat
  | repeatedOperator _ offset => offset
  | misplacedOperator _ offset _ => offset
  | unexpectedToken _ offset => offset
  | nameMismatch _ offset => offset
  | unexpectedEnd offset _ => offset

theorem Source.charAt?_eq_some_iff {source : Source} {offset : Nat} {c : Char} :
    source.charAt? offset = some c ↔
      ∃ before after, source.chars = before ++ c :: after ∧ byteSize before = offset := by
  constructor
  · intro h
    obtain ⟨rest, hdrop, hhead⟩ := Option.bind_eq_some_iff.1 h
    obtain ⟨before, hchars, hsize⟩ := eq_append_of_dropBytes? hdrop
    obtain ⟨after, rfl⟩ := List.head?_eq_some_iff.1 hhead
    exact ⟨before, after, hchars, hsize⟩
  · rintro ⟨before, after, hchars, rfl⟩
    rw [Source.charAt?, hchars, dropBytes?_append]
    rfl

namespace MemberScan

/-- Whether the bytes are a comment in front of `rest`. A block comment goes up to the first `*/` behind
its opening, a line comment up to a line feed or the end of the text, and `#[` opens none. -/
inductive IsComment : List UInt8 → List UInt8 → Prop
  | block {body rest : List UInt8} : ¬ [42, 47] <:+: body ++ [42] →
      IsComment (47 :: 42 :: (body ++ [42, 47])) rest
  | slashes {body rest : List UInt8} : 10 ∉ body → (∀ b, rest.head? = some b → b = 10) →
      IsComment (47 :: 47 :: body) rest
  | hash {body rest : List UInt8} : 10 ∉ body → body.head? ≠ some 91 →
      (∀ b, rest.head? = some b → b = 10) → IsComment (35 :: body) rest

/-- Whether the bytes are a gap in front of `rest`: white space, and comments if they are skipped. -/
inductive IsGapBefore (comments : Bool) : List UInt8 → List UInt8 → Prop
  | nil {rest : List UInt8} : IsGapBefore comments [] rest
  | blank {b : UInt8} {gap rest : List UInt8} : isBlank b = true → IsGapBefore comments gap rest →
      IsGapBefore comments (b :: gap) rest
  | comment {comment gap rest : List UInt8} : comments = true → IsComment comment (gap ++ rest) →
      IsGapBefore comments gap rest → IsGapBefore comments (comment ++ gap) rest

/-- Whether the bytes `text` are a run in front of `rest`: the bytes `passed`, each behind a gap, and a
gap behind the last of them. -/
inductive IsRun (comments : Bool) : List UInt8 → List UInt8 → List UInt8 → Prop
  | gap {gap rest : List UInt8} : IsGapBefore comments gap rest → IsRun comments [] gap rest
  | operator {b : UInt8} {passed gap text rest : List UInt8} :
      IsGapBefore comments gap (b :: (text ++ rest)) → IsRun comments passed text rest →
      IsRun comments (b :: passed) (gap ++ b :: text) rest

/-! ### Comments -/

private theorem lineLength_of_head? {bytes : List UInt8} (h : ∀ b, bytes.head? = some b → b = 10) :
    lineLength bytes = 0 := by
  cases bytes with
  | nil => rfl
  | cons b bytes =>
    rw [h b rfl]
    exact lineLength_feed bytes

private theorem exists_line (bytes : List UInt8) :
    ∃ body rest, bytes = body ++ rest ∧ body.length = lineLength bytes ∧ 10 ∉ body ∧
      ∀ b, rest.head? = some b → b = 10 := by
  refine ⟨bytes.takeWhile (· != 10), bytes.dropWhile (· != 10), List.takeWhile_append_dropWhile.symm, rfl,
    ?_, ?_⟩
  · intro hmem
    simpa using List.all_eq_true.1 List.all_takeWhile 10 hmem
  · intro b hb
    have hfeed := List.head?_dropWhile_not (· != 10) bytes
    rw [hb] at hfeed
    simpa using hfeed

theorem IsComment.commentLength?_append {comment rest : List UInt8} (h : IsComment comment rest) :
    commentLength? (comment ++ rest) = some comment.length := by
  cases h with
  | @block body rest hbody => simp [commentLength?, closeLength?_append hbody]
  | @slashes body rest hbody hend =>
    simp [commentLength?, lineLength_append hbody, lineLength_of_head? hend]
  | @hash body rest hbody hhead hend =>
    have hfront : (body ++ rest).head? ≠ some 91 := by
      cases body with
      | nil =>
        intro hbracket
        exact absurd (hend 91 hbracket) (by decide)
      | cons b body => simpa using hhead
    rw [List.cons_append, commentLength?_hash hfront, lineLength_append hbody, lineLength_of_head? hend]
    rfl

theorem exists_isComment {bytes : List UInt8} {n : Nat} (h : commentLength? bytes = some n) :
    ∃ comment rest, bytes = comment ++ rest ∧ comment.length = n ∧ IsComment comment rest := by
  unfold commentLength? at h
  split at h
  · obtain ⟨m, hm, rfl⟩ := Option.map_eq_some_iff.1 h
    obtain ⟨body, rest, rfl, rfl, hbody⟩ := closeLength?_eq_some hm
    exact ⟨_, rest, by simp, by simp, .block hbody⟩
  · rename_i bytes
    obtain ⟨body, rest, hbytes, hlength, hbody, hend⟩ := exists_line bytes
    rw [Option.some.injEq, ← hlength] at h
    exact ⟨_, rest, by simp [hbytes], by simpa using h, .slashes hbody hend⟩
  · simp at h
  · rename_i bytes hattribute
    obtain ⟨body, rest, hbytes, hlength, hbody, hend⟩ := exists_line bytes
    rw [Option.some.injEq, ← hlength] at h
    have hhead : body.head? ≠ some 91 := by
      intro hbracket
      obtain ⟨tail, rfl⟩ := List.head?_eq_some_iff.1 hbracket
      exact hattribute _ (by rw [hbytes, List.cons_append])
    exact ⟨_, rest, by simp [hbytes], by simpa using h, .hash hbody hhead hend⟩
  · simp at h

theorem IsComment.exists_cons {comment rest : List UInt8} (h : IsComment comment rest) :
    ∃ b body, comment = b :: body ∧ (b = 47 ∨ b = 35) := by
  cases h with
  | block => exact ⟨47, _, rfl, .inl rfl⟩
  | slashes => exact ⟨47, _, rfl, .inl rfl⟩
  | hash => exact ⟨35, _, rfl, .inr rfl⟩

theorem commentLength?_eq_none {b : UInt8} (hslash : b ≠ 47) (hhash : b ≠ 35) (rest : List UInt8) :
    commentLength? (b :: rest) = none := by
  cases hlength : commentLength? (b :: rest) with
  | none => rfl
  | some n =>
    obtain ⟨comment, after, hbytes, -, hcomment⟩ := exists_isComment hlength
    obtain ⟨c, body, rfl, hc⟩ := hcomment.exists_cons
    obtain ⟨rfl, -⟩ := List.cons.inj hbytes
    exact absurd hc (by simp [hslash, hhash])

/-! ### Gaps and runs -/

section Runs

variable {comments : Bool} {gap gap' passed passed' text text' comment rest : List UInt8} {b : UInt8}

private theorem IsGapBefore.append (h : IsGapBefore comments gap (gap' ++ rest))
    (h' : IsGapBefore comments gap' rest) : IsGapBefore comments (gap ++ gap') rest := by
  generalize hbehind : gap' ++ rest = behind at h
  induction h with
  | nil => exact h'
  | blank hb _ ih => exact .blank hb (ih hbehind)
  | @comment comment gap behind hcomments hcomment _ ih =>
    subst hbehind
    rw [← List.append_assoc] at hcomment
    rw [List.append_assoc]
    exact .comment hcomments hcomment (ih rfl)

private theorem IsRun.after_gap (hgap : IsGapBefore comments gap (text ++ rest))
    (h : IsRun comments passed text rest) : IsRun comments passed (gap ++ text) rest := by
  cases h with
  | gap hgap' => exact .gap (hgap.append hgap')
  | @operator b passed gap' text rest hgap' hrun =>
    have hboth : IsGapBefore comments (gap ++ gap') (b :: (text ++ rest)) :=
      IsGapBefore.append (by simpa using hgap) hgap'
    simpa using IsRun.operator hboth hrun

theorem IsRun.append (h : IsRun comments passed text (text' ++ rest))
    (h' : IsRun comments passed' text' rest) :
    IsRun comments (passed ++ passed') (text ++ text') rest := by
  generalize hbehind : text' ++ rest = behind at h
  induction h with
  | gap hgap =>
    subst hbehind
    exact h'.after_gap hgap
  | @operator b passed gap text behind hgap _ ih =>
    subst hbehind
    have hgap' : IsGapBefore comments gap (b :: (text ++ text' ++ rest)) := by
      simpa using hgap
    simpa using IsRun.operator hgap' (ih rfl)

private theorem isRun_blank (hb : isBlank b = true) : IsRun comments [] [b] rest := .gap (.blank hb .nil)

private theorem isRun_comment (hcomments : comments = true) (h : IsComment comment rest) :
    IsRun comments [] comment rest := by
  have hgap : IsGapBefore comments (comment ++ []) rest := .comment hcomments h .nil
  rw [List.append_nil] at hgap
  exact .gap hgap

private theorem isRun_operator : IsRun comments [b] [b] rest := .operator .nil (.gap .nil)

theorem IsRun.passed_sublist (h : IsRun comments passed text rest) : passed.Sublist text := by
  induction h with
  | gap => exact List.nil_sublist _
  | operator _ _ ih => exact (ih.cons_cons _).trans (List.sublist_append_right _ _)

end Runs

/-! ### Steps -/

section Steps

variable {r : Request} {matched matched' offset n : Nat} {b : UInt8}
  {bytes passed passed' text text' rest rest' : List UInt8}

/-- One step of a scan: how many bytes it goes over, and how much of the operator is matched then. -/
def step? (r : Request) (matched : Nat) (bytes : List UInt8) : Option (Nat × Nat) :=
  match bytes with
  | [] => none
  | byte :: _ =>
    if isBlank byte then some (1, matched)
    else
      match if r.skipComments then commentLength? bytes else none with
      | some n => some (n, matched)
      | none => if r.expected[matched]? = some byte then some (1, matched + 1) else none

def answer (r : Request) (matched offset : Nat) : List UInt8 → Except ScanError Nat
  | [] => .error (.unexpectedEnd offset r.member)
  | byte :: rest => settle r matched offset byte (byte :: rest)

private theorem step?_cases (h : step? r matched bytes = some (n, matched')) :
    ∃ b rest, bytes = b :: rest ∧
      (isBlank b = true ∧ n = 1 ∧ matched' = matched ∨
        isBlank b = false ∧ (if r.skipComments then commentLength? bytes else none) = some n ∧
          matched' = matched ∨
        isBlank b = false ∧ (if r.skipComments then commentLength? bytes else none) = none ∧
          r.expected[matched]? = some b ∧ n = 1 ∧ matched' = matched + 1) := by
  cases bytes with
  | nil => simp [step?] at h
  | cons b rest =>
    refine ⟨b, rest, rfl, ?_⟩
    cases hb : isBlank b with
    | true =>
      simp only [step?, hb, if_true, Option.some.injEq, Prod.mk.injEq] at h
      exact .inl ⟨rfl, h.1.symm, h.2.symm⟩
    | false =>
      right
      cases hcomment : if r.skipComments then commentLength? (b :: rest) else none with
      | some m =>
        simp only [step?, hb, hcomment, Bool.false_eq_true, if_false, Option.some.injEq,
          Prod.mk.injEq] at h
        exact .inl ⟨rfl, congrArg some h.1, h.2.symm⟩
      | none =>
        simp only [step?, hb, hcomment, Bool.false_eq_true, if_false,
          Option.ite_none_right_eq_some, Option.some.injEq, Prod.mk.injEq] at h
        exact .inr ⟨rfl, rfl, h.1, h.2.1.symm, h.2.2.symm⟩

theorem scan_of_step? (h : step? r matched bytes = some (n, matched')) (offset : Nat) :
    scan r matched offset bytes = scan r matched' (offset + n) (bytes.drop n) := by
  obtain ⟨b, rest, rfl, ⟨hb, rfl, rfl⟩ | ⟨hb, hcomment, rfl⟩ | ⟨hb, hcomment, hnext, rfl, rfl⟩⟩ :=
    step?_cases h
  · exact scan_blank hb
  · exact scan_skip hb hcomment
  · rw [scan_stop hb hcomment, if_pos hnext]
    rfl

theorem scan_of_step?_eq_none (h : step? r matched bytes = none) (offset : Nat) :
    scan r matched offset bytes = answer r matched offset bytes := by
  cases bytes with
  | nil => simp [scan, answer]
  | cons b rest =>
    cases hb : isBlank b with
    | true => simp [step?, hb] at h
    | false =>
      cases hcomment : if r.skipComments then commentLength? (b :: rest) else none with
      | some m => simp [step?, hb, hcomment] at h
      | none =>
        have hnext : ¬ r.expected[matched]? = some b := by
          simpa [step?, hb, hcomment] using h
        rw [scan_stop hb hcomment, if_neg hnext]
        rfl

private theorem step?_blank (hb : isBlank b = true) : step? r matched (b :: rest) = some (1, matched) := by
  simp [step?, hb]

theorem step?_comment {comment : List UInt8} (hskip : r.skipComments = true)
    (h : IsComment comment rest) :
    step? r matched (comment ++ rest) = some (comment.length, matched) := by
  have hlength := h.commentLength?_append
  obtain ⟨b, body, rfl, hb⟩ := h.exists_cons
  have hblank : isBlank b = false := by rcases hb with rfl | rfl <;> decide
  rw [List.cons_append] at hlength ⊢
  simp [step?, hblank, hskip, hlength]

private theorem commentLength?_expected (h : b ∈ r.expected) (rest : List UInt8) :
    commentLength? (b :: rest) = none := by
  apply commentLength?_eq_none
  · rintro rfl
    simpa using mem_expected h
  · rintro rfl
    simpa using mem_expected h

private theorem isBlank_expected (h : b ∈ r.expected) : isBlank b = false := by
  rcases mem_expected h with rfl | rfl | rfl | rfl <;> decide

private theorem step?_operator (h : r.expected[matched]? = some b) :
    step? r matched (b :: rest) = some (1, matched + 1) := by
  have hmem := List.mem_of_getElem? h
  simp [step?, isBlank_expected hmem, commentLength?_expected hmem, h]

theorem isRun_of_step? (h : step? r matched bytes = some (n, matched')) :
    ∃ passed text rest, bytes = text ++ rest ∧ text.length = n ∧ 0 < n ∧
      IsRun r.skipComments passed text rest ∧ passed <+: r.expected.drop matched ∧
      matched' = matched + passed.length := by
  obtain ⟨b, rest, rfl, ⟨hb, rfl, rfl⟩ | ⟨-, hcomment, rfl⟩ | ⟨-, -, hnext, rfl, rfl⟩⟩ := step?_cases h
  · exact ⟨[], [b], rest, rfl, rfl, Nat.one_pos, isRun_blank hb, List.nil_prefix, rfl⟩
  · obtain ⟨hskip, hlength⟩ := Option.ite_none_right_eq_some.1 hcomment
    obtain ⟨comment, after, hbytes, hn, hiscomment⟩ := exists_isComment hlength
    exact ⟨[], comment, after, hbytes, hn, commentLength?_pos hlength,
      isRun_comment hskip hiscomment, List.nil_prefix, rfl⟩
  · obtain ⟨hlt, hget⟩ := List.getElem?_eq_some_iff.1 hnext
    have hdrop : [b] <+: r.expected.drop matched :=
      ⟨_, by rw [List.drop_eq_getElem_cons hlt, hget]; rfl⟩
    exact ⟨[b], [b], rest, rfl, rfl, Nat.one_pos, isRun_operator, hdrop, rfl⟩

private theorem IsGapBefore.exists_step? {gap : List UInt8} (h : IsGapBefore r.skipComments gap rest)
    (hne : gap ≠ []) (matched : Nat) :
    ∃ n, step? r matched (gap ++ rest) = some (n, matched) ∧ 0 < n ∧ n ≤ gap.length ∧
      IsGapBefore r.skipComments (gap.drop n) rest := by
  cases h with
  | nil => exact absurd rfl hne
  | @blank b gap _ hb hgap => exact ⟨1, step?_blank hb, Nat.one_pos, by simp, hgap⟩
  | @comment comment gap _ hskip hcomment hgap =>
    have hpos := commentLength?_pos hcomment.commentLength?_append
    refine ⟨comment.length, ?_, hpos, by simp, ?_⟩
    · rw [List.append_assoc]
      exact step?_comment hskip hcomment
    · rwa [List.drop_left]

/-- The first step in a run goes over a part of it, and what is left of the run is a run. -/
theorem IsRun.exists_step? (h : IsRun r.skipComments passed text rest)
    (hpassed : passed <+: r.expected.drop matched) :
    (text = [] ∧ passed = []) ∨
      ∃ n matched' passed', step? r matched (text ++ rest) = some (n, matched') ∧ 0 < n ∧
        n ≤ text.length ∧ IsRun r.skipComments passed' (text.drop n) rest ∧
        passed' <+: r.expected.drop matched' ∧ matched' + passed'.length = matched + passed.length := by
  cases h with
  | gap hgap =>
    by_cases hne : text = []
    · exact .inl ⟨hne, rfl⟩
    · obtain ⟨n, hstep, hpos, hle, hleft⟩ := hgap.exists_step? hne matched
      exact .inr ⟨n, matched, [], hstep, hpos, hle, .gap hleft, hpassed, rfl⟩
  | @operator b passed gap text _ hgap hrun =>
    right
    by_cases hne : gap = []
    · subst hne
      obtain ⟨tail, hexpected, hlater⟩ := List.cons_prefix_iff.1 hpassed
      have hnext : r.expected[matched]? = some b := by
        rw [← List.head?_drop, hexpected]
        rfl
      have hrest : r.expected.drop (matched + 1) = tail := by
        rw [← List.tail_drop, hexpected]
        rfl
      refine ⟨1, matched + 1, passed, step?_operator hnext, Nat.one_pos, by simp, hrun, ?_, ?_⟩
      · rwa [hrest]
      · rw [List.length_cons]
        omega
    · obtain ⟨n, hstep, hpos, hle, hleft⟩ := hgap.exists_step? hne matched
      refine ⟨n, matched, b :: passed, by simpa using hstep, hpos, ?_, ?_, hpassed, rfl⟩
      · rw [List.length_append]
        omega
      · rw [List.drop_append_of_le_length hle]
        exact .operator hleft hrun

theorem scan_of_isRun (h : IsRun r.skipComments passed text rest)
    (hpassed : passed <+: r.expected.drop matched) (offset : Nat) :
    scan r matched offset (text ++ rest) =
      scan r (matched + passed.length) (offset + text.length) rest := by
  induction hsize : text.length using Nat.strongRecOn generalizing matched offset passed text with
  | ind size ih =>
  rcases h.exists_step? hpassed with ⟨rfl, rfl⟩ | ⟨n, matched', passed', hstep, hpos, hle, hrun, hpassed', hsum⟩
  · subst hsize
    rfl
  · have hlength : (text.drop n).length = text.length - n := List.length_drop
    rw [scan_of_step? hstep, List.drop_append_of_le_length hle,
      ih _ (by omega) hrun hpassed' (offset + n) rfl, hsum]
    congr 1
    omega

/-- A scan goes over a run behind which it has no step left, and answers there. -/
theorem exists_stopped_run (r : Request) (matched offset : Nat) (bytes : List UInt8) :
    ∃ passed text rest, bytes = text ++ rest ∧ IsRun r.skipComments passed text rest ∧
      passed <+: r.expected.drop matched ∧ step? r (matched + passed.length) rest = none ∧
      scan r matched offset bytes = answer r (matched + passed.length) (offset + text.length) rest := by
  induction hsize : bytes.length using Nat.strongRecOn generalizing matched offset bytes with
  | ind size ih =>
  cases hstep : step? r matched bytes with
  | none =>
    exact ⟨[], [], bytes, rfl, .gap .nil, List.nil_prefix, hstep, scan_of_step?_eq_none hstep offset⟩
  | some moved =>
    obtain ⟨n, matched'⟩ := moved
    obtain ⟨passed, text, rest, rfl, rfl, hpos, hrun, hpassed, rfl⟩ := isRun_of_step? hstep
    have hshorter : rest.length < size := by
      rw [← hsize, List.length_append]
      omega
    obtain ⟨passed', text', rest', rfl, hrun', hpassed', hstuck, hanswer⟩ :=
      ih _ hshorter (matched + passed.length) (offset + text.length) rest rfl
    refine ⟨passed ++ passed', text ++ text', rest', by simp, hrun.append hrun', ?_, ?_, ?_⟩
    · obtain ⟨tail, htail⟩ := hpassed
      rw [← List.drop_drop, ← htail, List.drop_left] at hpassed'
      rw [← htail]
      exact (List.prefix_append_right_inj passed).2 hpassed'
    · rwa [List.length_append, ← Nat.add_assoc]
    · rw [scan_of_step? hstep, List.drop_left, hanswer, List.length_append, List.length_append]
      simp only [Nat.add_assoc]

/-- A run behind which no step is left is the longest. -/
theorem IsRun.length_le (h : IsRun r.skipComments passed text rest)
    (hpassed : passed <+: r.expected.drop matched)
    (hstuck : step? r (matched + passed.length) rest = none)
    (h' : IsRun r.skipComments passed' text' rest') (hpassed' : passed' <+: r.expected.drop matched)
    (hsame : text ++ rest = text' ++ rest') : text'.length ≤ text.length := by
  induction hsize : text'.length using Nat.strongRecOn generalizing matched passed passed' text text' with
  | ind size ih =>
  rcases h'.exists_step? hpassed' with
    ⟨rfl, -⟩ | ⟨n, matched₁, passed₁', hstep', hpos, hle', hrun', hpassed₁', -⟩
  · rw [← hsize]
    exact Nat.zero_le _
  · rcases h.exists_step? hpassed with ⟨rfl, rfl⟩ | ⟨m, matched₂, passed₁, hstep, -, hle, hrun, hpassed₁, hsum⟩
    · rw [List.nil_append] at hsame
      rw [List.length_nil, Nat.add_zero, hsame, hstep'] at hstuck
      exact absurd hstuck (Option.some_ne_none _)
    · -- Both runs begin with the same step.
      rw [hsame, hstep', Option.some.injEq, Prod.mk.injEq] at hstep
      obtain ⟨rfl, rfl⟩ := hstep
      have hbehind : text.drop n ++ rest = text'.drop n ++ rest' := by
        rw [← List.drop_append_of_le_length hle, ← List.drop_append_of_le_length hle', hsame]
      have hshorter := ih (text'.drop n).length (by rw [List.length_drop]; omega) hrun hpassed₁
        (by rwa [hsum]) hrun' hpassed₁' hbehind rfl
      rw [List.length_drop, List.length_drop] at hshorter
      omega

end Steps

end MemberScan

end CaretContext
