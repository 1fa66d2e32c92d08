import CaretContext.Response

/-!
# What a response line tells

Each part of a response line ends where its own text says so, whatever comes behind it: a string at its
first bare quote, a list at its bracket, a number at the first character that is no digit. So the line
can be taken apart from its front, and two outcomes with the same line differ at most in the form of a
call, which is not written.
-/

namespace CaretContext

variable {α β : Type}

/-- Whether the text of a value tells where it ends, whatever comes behind it. -/
def SelfDelimiting (text : α → List Char) : Prop :=
  ∀ a b rest rest', text a ++ rest = text b ++ rest' → a = b ∧ rest = rest'

namespace SelfDelimiting

variable {text : α → List Char} {other : β → List Char}

private theorem injective (h : SelfDelimiting text) {a b : α} (hsame : text a = text b) : a = b :=
  (h a b [] [] (by rw [hsame])).1

private theorem of_read (read : List Char → Option (α × List Char))
    (h : ∀ a rest, read (text a ++ rest) = some (a, rest)) : SelfDelimiting text := by
  intro a b rest rest' hsame
  have hread := congrArg read hsame
  rw [h, h, Option.some.injEq, Prod.mk.injEq] at hread
  exact hread

private theorem between (h : SelfDelimiting text) (front back : List Char) :
    SelfDelimiting fun a => front ++ text a ++ back := by
  intro a b rest rest' hsame
  simp only [List.append_assoc, List.append_cancel_left_eq] at hsame
  obtain ⟨rfl, hrest⟩ := h _ _ _ _ hsame
  exact ⟨rfl, List.append_cancel_left hrest⟩

private theorem run (h : SelfDelimiting text) {stop : Char}
    (hstop : ∀ a, ∃ c cs, text a = c :: cs ∧ c ≠ stop) :
    SelfDelimiting fun as : List α => as.flatMap text ++ [stop] := by
  intro as
  induction as with
  | nil =>
    intro bs rest rest' hsame
    cases bs with
    | nil => simpa using hsame
    | cons b bs =>
      obtain ⟨c, cs, htext, hc⟩ := hstop b
      simp only [List.flatMap_nil, List.nil_append, List.flatMap_cons, htext, List.cons_append,
        List.cons.injEq] at hsame
      exact absurd hsame.1.symm hc
  | cons a as ih =>
    intro bs rest rest' hsame
    cases bs with
    | nil =>
      obtain ⟨c, cs, htext, hc⟩ := hstop a
      simp only [List.flatMap_nil, List.nil_append, List.flatMap_cons, htext, List.cons_append,
        List.cons.injEq] at hsame
      exact absurd hsame.1 hc
    | cons b bs =>
      simp only [List.flatMap_cons, List.append_assoc] at hsame
      obtain ⟨rfl, hrun⟩ := h _ _ _ _ hsame
      obtain ⟨rfl, hrest⟩ := ih bs rest rest' (by simpa using hrun)
      exact ⟨rfl, hrest⟩

end SelfDelimiting

theorem isDigit_of_mem_toString {k : Nat} {c : Char} (h : c ∈ (toString k).toList) : c.isDigit = true := by
  rw [Nat.toString_eq_repr, Nat.toList_repr] at h
  exact Nat.isDigit_of_mem_toDigits (by decide) (by decide) h

theorem takeWhile_isDigit_append (n : Nat) {rest : List Char}
    (hrest : ∀ c, rest.head? = some c → c.isDigit = false) :
    ((toString n).toList ++ rest).takeWhile Char.isDigit = Nat.toDigits 10 n := by
  have hnone : rest.takeWhile Char.isDigit = [] := by
    cases rest with
    | nil => rfl
    | cons c rest => simp [hrest c rfl]
  rw [List.takeWhile_append_of_pos fun _ => isDigit_of_mem_toString, hnone, List.append_nil,
    Nat.toString_eq_repr, Nat.toList_repr]

private theorem digits_append_inj {n m : Nat} {rest rest' : List Char}
    (hrest : ∀ c, rest.head? = some c → c.isDigit = false)
    (hrest' : ∀ c, rest'.head? = some c → c.isDigit = false)
    (h : (toString n).toList ++ rest = (toString m).toList ++ rest') : n = m ∧ rest = rest' := by
  have hsame := congrArg (List.takeWhile Char.isDigit) h
  rw [takeWhile_isDigit_append n hrest, takeWhile_isDigit_append m hrest'] at hsame
  have hvalue := congrArg (Nat.ofDigitChars 10 · 0) hsame
  simp only [Nat.ofDigitChars_toDigits (by decide : 1 < 10) (by decide : 10 ≤ 10)] at hvalue
  subst hvalue
  exact ⟨rfl, List.append_cancel_left h⟩

/-! ### JSON text -/

namespace Json

/-- The character that is spelled by a backslash and a letter. -/
def unescape? : Char → Option Char
  | '"' => some '"'
  | '\\' => some '\\'
  | '/' => some '/'
  | 'b' => some '\x08'
  | 'f' => some '\x0c'
  | 'n' => some '\n'
  | 'r' => some '\r'
  | 't' => some '\t'
  | _ => none

def hexDigit? (c : Char) : Option Nat :=
  if '0' ≤ c ∧ c ≤ '9' then some (c.toNat - '0'.toNat)
  else if 'a' ≤ c ∧ c ≤ 'f' then some (c.toNat - 'a'.toNat + 10)
  else if 'A' ≤ c ∧ c ≤ 'F' then some (c.toNat - 'A'.toNat + 10)
  else none

/-- The character with the number that four hexadecimal digits give. Surrogates are no characters. -/
def codePoint? (a b c d : Char) : Option Char := do
  let n := 4096 * (← hexDigit? a) + 256 * (← hexDigit? b) + 16 * (← hexDigit? c) + (← hexDigit? d)
  if 0xD800 ≤ n ∧ n ≤ 0xDFFF then none else some (Char.ofNat n)

/-- The character that a text inside quotes begins with. -/
def readSpelling : List Char → Option (Char × List Char)
  | '\\' :: 'u' :: a :: b :: c :: d :: rest => (codePoint? a b c d).map fun char => (char, rest)
  | '\\' :: letter :: rest => (unescape? letter).map fun char => (char, rest)
  | c :: rest => if c = '"' ∨ c = '\\' ∨ c.toNat < 0x20 then none else some (c, rest)
  | [] => none

private theorem escapeChar_control {c : Char} (h : c.toNat < 32) :
    c = '\x08' ∨ c = '\x0c' ∨ c = '\n' ∨ c = '\r' ∨ c = '\t' ∨
      escapeChar c = ['\\', 'u', '0', '0', hexDigit (c.toNat / 16), hexDigit (c.toNat % 16)] := by
  unfold escapeChar
  repeat' split
  all_goals simp_all

theorem escapeChar_plain {c : Char} (hquote : c ≠ '"') (hslash : c ≠ '\\') (hcontrol : ¬ c.toNat < 32) :
    escapeChar c = [c] := by
  unfold escapeChar
  repeat' split
  all_goals first | rfl | (subst_vars; simp_all)

private theorem codePoint?_control {n : Nat} (h : n < 0x20) :
    codePoint? '0' '0' (hexDigit (n / 16)) (hexDigit (n % 16)) = some (Char.ofNat n) := by
  have hall : ∀ n < 0x20,
      codePoint? '0' '0' (hexDigit (n / 16)) (hexDigit (n % 16)) = some (Char.ofNat n) := by decide
  exact hall n h

private theorem readSpelling_plain {c : Char} (hquote : c ≠ '"') (hslash : c ≠ '\\')
    (hcontrol : ¬ c.toNat < 0x20)
    (rest : List Char) : readSpelling (c :: rest) = some (c, rest) := by
  unfold readSpelling
  split
  · simp_all
  · simp_all
  · rename_i heq
    obtain ⟨rfl, rfl⟩ := List.cons.inj heq
    rw [if_neg]
    simp [hquote, hslash, hcontrol]
  · simp_all

theorem readSpelling_escapeChar (c : Char) (rest : List Char) :
    readSpelling (escapeChar c ++ rest) = some (c, rest) := by
  by_cases hcontrol : c.toNat < 0x20
  · rcases escapeChar_control hcontrol with rfl | rfl | rfl | rfl | rfl | hlong
    · rfl
    · rfl
    · rfl
    · rfl
    · rfl
    · simp [hlong, readSpelling, codePoint?_control hcontrol]
  · by_cases hquote : c = '"'
    · subst hquote
      rfl
    by_cases hslash : c = '\\'
    · subst hslash
      rfl
    rw [escapeChar_plain hquote hslash hcontrol]
    exact readSpelling_plain hquote hslash hcontrol rest

theorem exists_cons_escapeChar (c : Char) : ∃ d ds, escapeChar c = d :: ds ∧ d ≠ '"' := by
  unfold escapeChar
  repeat' split
  all_goals simp_all

theorem toList_string (s : String) : (string s).toList = '"' :: (s.toList.flatMap escapeChar ++ ['"']) := by
  simp [string]

private theorem selfDelimiting_string : SelfDelimiting fun s => (string s).toList := by
  have hchar : SelfDelimiting escapeChar := .of_read readSpelling readSpelling_escapeChar
  intro s s' rest rest' h
  simp only [toList_string, List.cons_append, List.cons.injEq, true_and] at h
  obtain ⟨hchars, hrest⟩ := hchar.run exists_cons_escapeChar _ _ _ _ h
  exact ⟨String.toList_inj.1 hchars, hrest⟩

theorem toList_array_nil : (array []).toList = ['[', ']'] := by decide

theorem toList_intercalate_cons (item : String) (items : List String) :
    (",".intercalate (item :: items)).toList =
      item.toList ++ items.flatMap (fun item => ',' :: item.toList) := by
  induction items generalizing item with
  | nil => simp
  | cons next items ih =>
    rw [String.intercalate_cons_cons, String.toList_append, String.toList_append, ih]
    simp

theorem toList_array_cons (item : String) (items : List String) :
    (array (item :: items)).toList =
      '[' :: (item.toList ++ (items.flatMap (fun item => ',' :: item.toList) ++ [']'])) := by
  rw [array, String.toList_append, String.toList_append, toList_intercalate_cons]
  simp

/-- A list of texts that tell where they end tells it too, if none of them begins as the list ends. -/
theorem selfDelimiting_array {text : α → String} (h : SelfDelimiting fun a => (text a).toList)
    (hhead : ∀ a, ∃ c cs, (text a).toList = c :: cs ∧ c ≠ ']') :
    SelfDelimiting fun items : List α => (array (items.map text)).toList := by
  have hcomma : SelfDelimiting fun a => ',' :: (text a).toList := by
    simpa using h.between [','] []
  have htail : SelfDelimiting fun as : List α => as.flatMap (fun a => ',' :: (text a).toList) ++ [']'] :=
    hcomma.run fun a => ⟨',', _, rfl, by decide⟩
  intro as bs rest rest' hsame
  cases as with
  | nil =>
    cases bs with
    | nil => exact ⟨rfl, by simpa using hsame⟩
    | cons b bs =>
      obtain ⟨c, cs, htext, hc⟩ := hhead b
      simp [toList_array_nil, toList_array_cons, htext, Ne.symm hc] at hsame
  | cons a as =>
    cases bs with
    | nil =>
      obtain ⟨c, cs, htext, hc⟩ := hhead a
      simp [toList_array_nil, toList_array_cons, htext, hc] at hsame
    | cons b bs =>
      simp only [List.map_cons, toList_array_cons, List.cons_append, List.cons.injEq, true_and,
        List.append_assoc, List.flatMap_map] at hsame
      obtain ⟨rfl, hitems⟩ := h _ _ _ _ hsame
      obtain ⟨rfl, hrest⟩ := htail as bs rest rest' (by simpa using hitems)
      exact ⟨rfl, hrest⟩

end Json

/-! ### Results -/

open Json

private theorem selfDelimiting_name : SelfDelimiting fun name : Option String =>
    (name.elim "null" string).toList := by
  intro name name' rest rest' h
  cases name with
  | none =>
    cases name' with
    | none => exact ⟨rfl, by simpa using h⟩
    | some s => simp [toList_string] at h
  | some s =>
    cases name' with
    | none => simp [toList_string] at h
    | some s' =>
      obtain ⟨rfl, hrest⟩ := selfDelimiting_string _ _ _ _ h
      exact ⟨rfl, hrest⟩

private theorem toList_label (label : String) :
    (object [("kind", string label)]).toList = "\x7b\"kind\":".toList ++ (string label).toList ++ ['\x7d'] := by
  have hkey : string "kind" = "\"kind\"" := by decide
  simp [object, hkey]

private theorem toList_invocation_json (found : Invocation) :
    found.json.toList = "\x7b\"name\":".toList ++ ((found.name.elim "null" string).toList ++
      (",\"type\":\"function\",\"callStack\":".toList ++ ((array (found.callStack.map string)).toList ++
      (",\"argumentIndex\":".toList ++ ((toString found.argumentIndex).toList ++ ([','] ++
      ("\"parameterListStartPos\":".toList ++ ((toString found.parameterListStart).toList ++
      ['\x7d'])))))))) := by
  have hname : string "name" = "\"name\"" := by decide
  have htype : string "type" = "\"type\"" := by decide
  have hfunction : string "function" = "\"function\"" := by decide
  have hstack : string "callStack" = "\"callStack\"" := by decide
  have hindex : string "argumentIndex" = "\"argumentIndex\"" := by decide
  have hstart : string "parameterListStartPos" = "\"parameterListStartPos\"" := by decide
  simp [Invocation.json, object, String.intercalate_cons_cons, hname, htype, hfunction, hstack, hindex, hstart]

def Invocation.forgetForm (found : Invocation) : Invocation := { found with form := .function }

private theorem forgetForm_of_json {found found' : Invocation} (h : found.json = found'.json) :
    found.forgetForm = found'.forgetForm := by
  have hchars := congrArg String.toList h
  rw [toList_invocation_json, toList_invocation_json] at hchars
  -- The fields are taken off the text one after the other.
  obtain ⟨hname, hchars⟩ := selfDelimiting_name _ _ _ _ (List.append_cancel_left hchars)
  obtain ⟨hstack, hchars⟩ :=
    selfDelimiting_array selfDelimiting_string (fun s => ⟨_, _, toList_string s, by decide⟩) _ _ _ _
      (List.append_cancel_left hchars)
  obtain ⟨hindex, hchars⟩ := digits_append_inj (by simp) (by simp) (List.append_cancel_left hchars)
  obtain ⟨hstart, -⟩ := digits_append_inj (by simp) (by simp)
    (List.append_cancel_left (List.append_cancel_left hchars))
  simp only [Invocation.forgetForm, hname, hstack, hindex, hstart]

private theorem labels_of_json {labels labels' : List String}
    (h : (Payload.scopeChain labels).json = (Payload.scopeChain labels').json) : labels = labels' := by
  have hlabel : SelfDelimiting fun label => (object [("kind", string label)]).toList := by
    simpa only [toList_label] using selfDelimiting_string.between _ _
  have harray := selfDelimiting_array hlabel fun label => ⟨'\x7b', _, toList_label label, by decide⟩
  exact harray.injective (congrArg String.toList h)

/-! ### Messages -/

private theorem AccessOperator.text_injective {operator operator' : AccessOperator}
    (h : operator.text = operator'.text) : operator = operator' := by
  cases operator <;> cases operator' <;> first | rfl | simp [AccessOperator.text] at h

private theorem append_digits_inj {front front' : List Char} {c : Char} {n m : Nat} (hc : c.isDigit = false)
    (h : front ++ c :: (toString n).toList = front' ++ c :: (toString m).toList) :
    front = front' ∧ n = m := by
  have hdigits : ∀ k : Nat, ∀ d ∈ (toString k).toList.reverse, d.isDigit = true := by
    intro k d hd
    exact isDigit_of_mem_toString (List.mem_reverse.1 hd)
  have hreverse := congrArg List.reverse h
  simp only [List.reverse_append, List.reverse_cons, List.append_assoc, List.singleton_append] at hreverse
  have hsame := congrArg (List.takeWhile Char.isDigit) hreverse
  simp only [List.takeWhile_append_of_pos (hdigits n), List.takeWhile_append_of_pos (hdigits m),
    List.takeWhile_cons_of_neg (Bool.not_eq_true _ ▸ hc), List.append_nil, List.reverse_inj] at hsame
  obtain ⟨hvalue, -⟩ : n = m ∧ ([] : List Char) = [] :=
    digits_append_inj (by simp) (by simp) (by rw [hsame])
  subst hvalue
  exact ⟨List.append_cancel_right h, rfl⟩

namespace ScanError

private theorem toList_message (cause : ScanError) :
    cause.message.toList = match cause with
      | repeatedOperator found offset =>
        "operator character `".toList ++ (found :: ("` repeated at offset ".toList ++
          ((toString offset).toList ++ [])))
      | misplacedOperator found offset operator =>
        "operator character `".toList ++ (found :: ("` out of order at offset ".toList ++
          ((toString offset).toList ++ (", expected `".toList ++ (operator.text.toList ++ ['`'])))))
      | unexpectedToken found offset =>
        "unexpected `".toList ++ (found :: ("` at offset ".toList ++
          ((toString offset).toList ++ " before the access operator".toList)))
      | nameMismatch expected offset =>
        "expected member `".toList ++ ((expected.toList ++ "` at offset".toList) ++
          ' ' :: (toString offset).toList)
      | unexpectedEnd offset member =>
        "source ended at offset ".toList ++ ((toString offset).toList ++
          (" before member `".toList ++ (member.toList ++ ['`']))) := by
  cases cause with
  | repeatedOperator found offset =>
    change (_ ++ _ ++ _ ++ _ : String).toList = _
    simp
  | misplacedOperator found offset operator =>
    change (_ ++ _ ++ _ ++ _ ++ _ ++ _ ++ _ : String).toList = _
    simp
  | unexpectedToken found offset =>
    change (_ ++ _ ++ _ ++ _ ++ _ : String).toList = _
    simp
  | nameMismatch expected offset =>
    change (_ ++ _ ++ _ ++ _ : String).toList = _
    simp
  | unexpectedEnd offset member =>
    change (_ ++ _ ++ _ ++ _ ++ _ : String).toList = _
    simp

private theorem message_injective {cause cause' : ScanError} (h : cause.message = cause'.message) :
    cause = cause' := by
  have hchars := congrArg String.toList h
  rw [toList_message, toList_message] at hchars
  cases cause with
  | repeatedOperator found offset =>
    cases cause' with
    | repeatedOperator found' offset' =>
      obtain ⟨rfl, hrest⟩ := List.cons.inj (List.append_cancel_left hchars)
      obtain ⟨rfl, -⟩ := digits_append_inj (by simp) (by simp) (List.append_cancel_left hrest)
      rfl
    | _ => simp at hchars
  | misplacedOperator found offset operator =>
    cases cause' with
    | misplacedOperator found' offset' operator' =>
      obtain ⟨rfl, hrest⟩ := List.cons.inj (List.append_cancel_left hchars)
      obtain ⟨rfl, hlast⟩ := digits_append_inj (by simp) (by simp) (List.append_cancel_left hrest)
      have htext := List.append_cancel_right (List.append_cancel_left hlast)
      rw [AccessOperator.text_injective (String.toList_inj.1 htext)]
    | _ => simp at hchars
  | unexpectedToken found offset =>
    cases cause' with
    | unexpectedToken found' offset' =>
      obtain ⟨rfl, hrest⟩ := List.cons.inj (List.append_cancel_left hchars)
      obtain ⟨rfl, -⟩ := digits_append_inj (by simp) (by simp) (List.append_cancel_left hrest)
      rfl
    | _ => simp at hchars
  | nameMismatch expected offset =>
    cases cause' with
    | nameMismatch expected' offset' =>
      -- The member is any text, so the offset is told from the end of the message.
      obtain ⟨hfront, rfl⟩ := append_digits_inj (by decide) (List.append_cancel_left hchars)
      rw [String.toList_inj.1 (List.append_cancel_right hfront)]
    | _ => simp at hchars
  | unexpectedEnd offset member =>
    cases cause' with
    | unexpectedEnd offset' member' =>
      obtain ⟨rfl, hrest⟩ := digits_append_inj (by simp) (by simp) (List.append_cancel_left hchars)
      have hmember := List.append_cancel_right (List.append_cancel_left hrest)
      rw [String.toList_inj.1 hmember]
    | _ => simp at hchars

end ScanError

private theorem QueryError.toList_message_inconsistent (cause : ScanError) :
    (inconsistent cause).message.toList = "Inconsistent source text: ".toList ++ cause.message.toList := by
  change (_ ++ _ : String).toList = _
  rw [String.toList_append]

private theorem QueryError.message_inconsistent_ne (cause : ScanError) :
    (inconsistent cause).message ≠ "No invocation found!" := by
  intro h
  have hchars := congrArg String.toList h
  simp [toList_message_inconsistent] at hchars

private theorem QueryError.inconsistent_of_message {cause cause' : ScanError}
    (h : (inconsistent cause).message = (inconsistent cause').message) : cause = cause' := by
  have hchars := congrArg String.toList h
  rw [toList_message_inconsistent, toList_message_inconsistent] at hchars
  exact ScanError.message_injective (String.toList_inj.1 (List.append_cancel_left hchars))

/-! ### Lines -/

private theorem Response.toList_json (response : Response) :
    response.json.toList = "\x7b\"success\":".toList ++ ((boolean response.success).toList ++
      (",\"result\":".toList ++ (response.payload.json.toList ++ ['\x7d']))) := by
  have hsuccess : string "success" = "\"success\"" := by decide
  have hresult : string "result" = "\"result\"" := by decide
  simp [json, object, String.intercalate_cons_cons, hsuccess, hresult]

private theorem Response.parts_of_json {response response' : Response} (h : response.json = response'.json) :
    response.success = response'.success ∧ response.payload.json = response'.payload.json := by
  have hchars := congrArg String.toList h
  rw [toList_json, toList_json] at hchars
  have hsuccess : response.success = response'.success := by
    cases hs : response.success <;> cases hs' : response'.success <;>
      simp [hs, hs', boolean] at hchars ⊢
  rw [hsuccess] at hchars
  have hpayload := List.append_cancel_left (List.append_cancel_left (List.append_cancel_left hchars))
  exact ⟨hsuccess, String.toList_inj.1 (List.append_cancel_right hpayload)⟩

def Payload.forgetForm : Payload → Payload
  | invocation found => invocation found.forgetForm
  | payload => payload

private theorem Payload.json_forgetForm (payload : Payload) : payload.forgetForm.json = payload.json := by
  cases payload <;> rfl

private theorem Payload.head?_json (payload : Payload) :
    payload.json.toList.head? = some (match payload with
      | scopeChain _ => '['
      | invocation _ => '\x7b'
      | text _ => '"') := by
  cases payload with
  | scopeChain labels => simp [json, array]
  | invocation found =>
    change found.json.toList.head? = _
    simp [toList_invocation_json]
  | text content => simp [json, toList_string]

private theorem Payload.forgetForm_of_json {payload payload' : Payload} (h : payload.json = payload'.json) :
    payload.forgetForm = payload'.forgetForm := by
  have hhead := head?_json payload
  rw [h, head?_json payload'] at hhead
  cases payload with
  | scopeChain labels =>
    cases payload' with
    | scopeChain labels' => rw [labels_of_json h]
    | _ => simp at hhead
  | invocation found =>
    cases payload' with
    | invocation found' => exact congrArg invocation (CaretContext.forgetForm_of_json h)
    | _ => simp at hhead
  | text content =>
    cases payload' with
    | text content' => rw [selfDelimiting_string.injective (congrArg String.toList h)]
    | _ => simp at hhead

def Response.forgetForm (response : Response) : Response :=
  { response with payload := response.payload.forgetForm }

private theorem Response.json_eq_iff {response response' : Response} :
    response.json = response'.json ↔ response.forgetForm = response'.forgetForm := by
  have hforget : ∀ response : Response, response.forgetForm.json = response.json := by
    intro response
    simp only [json, forgetForm, Payload.json_forgetForm]
  constructor
  · intro h
    obtain ⟨hsuccess, hpayload⟩ := parts_of_json h
    simp only [forgetForm, hsuccess, Payload.forgetForm_of_json hpayload]
  · intro h
    rw [← hforget response, h, hforget]

/-! ### Outcomes -/

def Answer.forgetForm : Answer → Answer
  | invocation found => invocation found.forgetForm
  | answer => answer

/-- Whether the query was taken: nothing was missing in it and its source could be read. -/
def IsTaken : Except QueryError Answer → Bool
  | .ok _ => true
  | .error (.inconsistent _) => true
  | .error _ => false

private theorem Response.forgetForm_ofOutcome (outcome : Except QueryError Answer) :
    (ofOutcome outcome).forgetForm = ofOutcome (outcome.map Answer.forgetForm) := by
  cases outcome with
  | error e => rfl
  | ok answer => cases answer <;> rfl

private theorem isTaken_error {e : QueryError} (h : IsTaken (.error e) = true) :
    ∃ cause, e = .inconsistent cause := by
  cases e with
  | inconsistent cause => exact ⟨cause, rfl⟩
  | _ => simp [IsTaken] at h

private theorem Response.ofOutcome_inj {outcome outcome' : Except QueryError Answer}
    (htaken : IsTaken outcome = true) (htaken' : IsTaken outcome' = true)
    (h : ofOutcome outcome = ofOutcome outcome') : outcome = outcome' := by
  cases outcome with
  | error e =>
    obtain ⟨cause, rfl⟩ := isTaken_error htaken
    cases outcome' with
    | error e' =>
      obtain ⟨cause', rfl⟩ := isTaken_error htaken'
      have hmessage : (QueryError.inconsistent cause).message = (QueryError.inconsistent cause').message := by
        simpa [ofOutcome, failure] using h
      rw [QueryError.inconsistent_of_message hmessage]
    | ok answer' =>
      cases answer' with
      | noInvocation =>
        exact absurd (by simpa [ofOutcome, failure] using h) (QueryError.message_inconsistent_ne cause)
      | _ => simp [ofOutcome, failure] at h
  | ok answer =>
    cases outcome' with
    | error e' =>
      obtain ⟨cause', rfl⟩ := isTaken_error htaken'
      cases answer with
      | noInvocation =>
        exact absurd (by simpa [ofOutcome, failure] using h.symm) (QueryError.message_inconsistent_ne cause')
      | _ => simp [ofOutcome, failure] at h
    | ok answer' =>
      have hchain : ∀ chain chain' : ScopeChain, chain.labels = chain'.labels ↔ chain = chain' := by
        rintro ⟨labels⟩ ⟨labels'⟩
        simp
      cases answer <;> cases answer' <;> simp_all [ofOutcome, failure]

private theorem isTaken_map_forgetForm (outcome : Except QueryError Answer) :
    IsTaken (outcome.map Answer.forgetForm) = IsTaken outcome := by
  cases outcome <;> rfl

/-- Two outcomes have the same line exactly if they differ in nothing but the form of a call. -/
theorem json_ofOutcome_eq_iff (outcome outcome' : Except QueryError Answer)
    (htaken : IsTaken outcome = true) (htaken' : IsTaken outcome' = true) :
    (Response.ofOutcome outcome).json = (Response.ofOutcome outcome').json ↔
      outcome.map Answer.forgetForm = outcome'.map Answer.forgetForm := by
  rw [Response.json_eq_iff, Response.forgetForm_ofOutcome, Response.forgetForm_ofOutcome]
  constructor
  · intro h
    refine Response.ofOutcome_inj ?_ ?_ h
    · rw [isTaken_map_forgetForm, htaken]
    · rw [isTaken_map_forgetForm, htaken']
  · intro h
    rw [h]

/-- A member that spells the rest of a message, and one that does not. -/
theorem json_ofOutcome_nameMismatch_ne :
    (Response.ofOutcome (.error (.inconsistent (.nameMismatch "\x7b$m\x7d` at offset 7" 12)))).json ≠
      (Response.ofOutcome (.error (.inconsistent (.nameMismatch "\x7b$m\x7d" 7)))).json := by
  rw [ne_eq, json_ofOutcome_eq_iff _ _ rfl rfl]
  simp [Except.map]

end CaretContext
