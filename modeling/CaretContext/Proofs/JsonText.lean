import CaretContext.Proofs.ResponseLine

/-!
# Reading JSON text

A reader for JSON without white space between its parts, with natural numbers as its only numbers and
without surrogates in its escapes. It takes no control character anywhere. What the writers of a response
line write is read back as the value they were given.
-/

namespace CaretContext.Json

/-- What a JSON text says. The fields of an object stand in the order of the text. -/
inductive Value where
  | null
  | boolean (value : Bool)
  | number (value : Nat)
  | string (text : String)
  | array (items : List Value)
  | object (fields : List (String × Value))

/-! ### The reader -/

/-- The characters up to the closing quote, at most `n` of them. -/
def readChars : Nat → List Char → Option (List Char × List Char)
  | 0, _ => none
  | _, '"' :: rest => some ([], rest)
  | n + 1, text =>
    (readSpelling text).bind fun (c, rest) => (readChars n rest).map fun (cs, rest) => (c :: cs, rest)

def readNumber (text : List Char) : Option (Value × List Char) :=
  let digits := text.takeWhile Char.isDigit
  if digits = [] ∨ digits.head? = some '0' ∧ digits ≠ ['0'] then none
  else some (.number (Nat.ofDigitChars 10 digits 0), text.drop digits.length)

def readKey (n : Nat) : List Char → Option (String × List Char)
  | '"' :: text =>
    match readChars n text with
    | some (key, ':' :: rest) => some (String.ofList key, rest)
    | _ => none
  | _ => none

mutual

/-- The value that the text begins with, and what is behind it. There are at most `n` values and fields one
in or behind the other. -/
def readValue : Nat → List Char → Option (Value × List Char)
  | 0, _ => none
  | n + 1, text =>
    match text with
    | 'n' :: 'u' :: 'l' :: 'l' :: rest => some (.null, rest)
    | 't' :: 'r' :: 'u' :: 'e' :: rest => some (.boolean true, rest)
    | 'f' :: 'a' :: 'l' :: 's' :: 'e' :: rest => some (.boolean false, rest)
    | '"' :: rest => (readChars n rest).map fun (cs, rest) => (.string (String.ofList cs), rest)
    | '[' :: ']' :: rest => some (.array [], rest)
    | '[' :: rest => (readItems n rest).map fun (items, rest) => (.array items, rest)
    | '\x7b' :: '\x7d' :: rest => some (.object [], rest)
    | '\x7b' :: rest => (readFields n rest).map fun (fields, rest) => (.object fields, rest)
    | text => readNumber text

def readItems : Nat → List Char → Option (List Value × List Char)
  | 0, _ => none
  | n + 1, text =>
    (readValue n text).bind fun (item, rest) =>
      match rest with
      | ',' :: rest => (readItems n rest).map fun (items, rest) => (item :: items, rest)
      | ']' :: rest => some ([item], rest)
      | _ => none

def readFields : Nat → List Char → Option (List (String × Value) × List Char)
  | 0, _ => none
  | n + 1, text =>
    (readKey n text).bind fun (key, text) =>
      (readValue n text).bind fun (value, rest) =>
        match rest with
        | ',' :: rest => (readFields n rest).map fun (fields, rest) => ((key, value) :: fields, rest)
        | '\x7d' :: rest => some ([(key, value)], rest)
        | _ => none

end

def read? (text : String) : Option Value :=
  match readValue text.toList.length text.toList with
  | some (value, []) => some value
  | _ => none

-- A raw line feed in a string, a comma behind the last item, and a zero in front of a number are no JSON.
example : (read? "\x7b\"a\":[10,\"\\u0041\\n\"]\x7d").isSome = true ∧ (read? "\"\n\"").isSome = false ∧
    (read? "[1,]").isSome = false ∧ (read? "01").isSome = false := by
  decide +kernel

/-! ### Strings -/

private theorem readChars_flatMap (cs rest : List Char) {n : Nat} (h : (cs.flatMap escapeChar).length < n) :
    readChars n (cs.flatMap escapeChar ++ '"' :: rest) = some (cs, rest) := by
  induction cs generalizing n with
  | nil =>
    cases n with
    | zero => simp at h
    | succ n => rfl
  | cons c cs ih =>
    obtain ⟨d, ds, hspelling, hd⟩ := exists_cons_escapeChar c
    have hread := readSpelling_escapeChar c (cs.flatMap escapeChar ++ '"' :: rest)
    rw [List.flatMap_cons, hspelling, List.length_append, List.length_cons] at h
    cases n with
    | zero => omega
    | succ n =>
      rw [hspelling] at hread
      rw [List.flatMap_cons, hspelling, List.append_assoc, List.cons_append, readChars]
      · rw [← List.cons_append, hread, Option.bind_some]
        dsimp only
        rw [ih (by omega)]
        rfl
      · simpa using hd

private theorem plain_of_all {text : List Char} (h : text.all (fun c => decide (0x20 ≤ c.toNat)) = true) :
    ∀ c ∈ text, 0x20 ≤ c.toNat := by
  intro c hc
  exact of_decide_eq_true (List.all_eq_true.1 h c hc)

private theorem le_of_mem_escapeChar {c d : Char} (h : d ∈ escapeChar c) : 0x20 ≤ d.toNat := by
  by_cases hcontrol : c.toNat < 0x20
  · have hall : ∀ n < 0x20, (escapeChar (Char.ofNat n)).all (fun c => decide (0x20 ≤ c.toNat)) = true := by
      decide
    apply plain_of_all (hall c.toNat hcontrol)
    rwa [Char.ofNat_toNat]
  · by_cases hquote : c = '"'
    · subst hquote
      exact plain_of_all (by decide) d h
    by_cases hslash : c = '\\'
    · subst hslash
      exact plain_of_all (by decide) d h
    rw [escapeChar_plain hquote hslash hcontrol, List.mem_singleton] at h
    subst h
    exact Nat.not_lt.1 hcontrol

/-! ### Written values -/

/-- Whether the text says the value in front of everything that does not go on with a digit, and holds no
control character. -/
structure Says (text : String) (value : Value) : Prop where
  reads : ∀ n rest, text.toList.length ≤ n → (∀ c, rest.head? = some c → c.isDigit = false) →
    readValue n (text.toList ++ rest) = some (value, rest)
  plain : ∀ c ∈ text.toList, 0x20 ≤ c.toNat

theorem Says.read? {text : String} {value : Value} (h : Says text value) :
    read? text = some value := by
  have hread := h.reads text.toList.length [] (Nat.le_refl _) (by simp)
  rw [List.append_nil] at hread
  rw [Json.read?, hread]

theorem says_null : Says "null" .null where
  reads n rest hlength _ := by
    obtain ⟨n, rfl⟩ : ∃ m, n = m + 1 := ⟨n - 1, by simp at hlength; omega⟩
    rfl
  plain := plain_of_all (by decide)

theorem says_boolean (b : Bool) : Says (boolean b) (.boolean b) where
  reads n rest hlength _ := by
    obtain ⟨n, rfl⟩ : ∃ m, n = m + 1 := ⟨n - 1, by cases b <;> simp [boolean] at hlength <;> omega⟩
    cases b <;> rfl
  plain := plain_of_all (by cases b <;> decide)

theorem says_string (s : String) : Says (string s) (.string s) where
  reads n rest hlength _ := by
    rw [toList_string, List.length_cons, List.length_append, List.length_singleton] at hlength
    obtain ⟨n, rfl⟩ : ∃ m, n = m + 1 := ⟨n - 1, by omega⟩
    have hchars := readChars_flatMap s.toList rest (n := n) (by omega)
    rw [toList_string, List.cons_append, List.append_assoc, List.singleton_append, readValue, hchars]
    simp
  plain := by
    intro c hc
    rw [toList_string, List.mem_cons, List.mem_append, List.mem_singleton] at hc
    rcases hc with rfl | hc | rfl
    · decide
    · obtain ⟨d, -, hd⟩ := List.mem_flatMap.1 hc
      exact le_of_mem_escapeChar hd
    · decide

private theorem head?_toDigits {n : Nat} (h : 0 < n) : (Nat.toDigits 10 n).head? ≠ some '0' := by
  induction n using Nat.strongRecOn with
  | ind n ih =>
  by_cases hlt : n < 10
  · have hall : ∀ n < 10, 0 < n → n.digitChar ≠ '0' := by decide
    simpa [Nat.toDigits_of_lt_base hlt] using hall n hlt h
  · have hfront := ih (n / 10) (by omega) (by omega)
    obtain ⟨d, ds, hdigits⟩ := List.exists_cons_of_ne_nil (Nat.toDigits_ne_nil (n := n / 10) (b := 10))
    rw [hdigits] at hfront
    rw [Nat.toDigits_of_base_le (by decide) (by omega), hdigits]
    exact hfront

private theorem readNumber_toString (n : Nat) {rest : List Char}
    (hrest : ∀ c, rest.head? = some c → c.isDigit = false) :
    readNumber ((toString n).toList ++ rest) = some (.number n, rest) := by
  have hzero : ¬ (Nat.toDigits 10 n = [] ∨
      (Nat.toDigits 10 n).head? = some '0' ∧ Nat.toDigits 10 n ≠ ['0']) := by
    rintro (hnil | ⟨hhead, hne⟩)
    · exact Nat.toDigits_ne_nil hnil
    · cases n with
      | zero => exact hne rfl
      | succ n => exact head?_toDigits (Nat.succ_pos n) hhead
  rw [readNumber, takeWhile_isDigit_append n hrest, if_neg hzero,
    Nat.ofDigitChars_toDigits (by decide) (by decide), Nat.toString_eq_repr,
    Nat.toList_repr, List.drop_left]

private theorem readValue_digit {c : Char} (h : c.isDigit = true) (n : Nat) (cs : List Char) :
    readValue (n + 1) (c :: cs) = readNumber (c :: cs) := by
  rw [readValue]
  all_goals
    intro rest heq
    obtain ⟨rfl, -⟩ := List.cons.inj heq
    exact absurd h (by decide)

theorem says_number (k : Nat) : Says (toString k) (.number k) where
  reads n rest hlength hrest := by
    have hne : (toString k).toList ≠ [] := by
      rw [Nat.toString_eq_repr, Nat.toList_repr]
      exact Nat.toDigits_ne_nil
    obtain ⟨c, cs, hcs⟩ := List.exists_cons_of_ne_nil hne
    have hc : c.isDigit = true := isDigit_of_mem_toString (by rw [hcs]; exact List.mem_cons_self)
    have hnumber := readNumber_toString k hrest
    rw [hcs, List.length_cons] at hlength
    obtain ⟨n, rfl⟩ : ∃ m, n = m + 1 := ⟨n - 1, by omega⟩
    rw [hcs, List.cons_append] at hnumber ⊢
    rw [readValue_digit hc, hnumber]
  plain := by
    intro c hc
    have hdigit := isDigit_of_mem_toString hc
    simp only [Char.isDigit, Bool.and_eq_true, decide_eq_true_eq] at hdigit
    exact Nat.le_trans (by decide) (UInt32.le_iff_toNat_le.1 hdigit.1)

/-! ### Arrays and objects -/

private theorem Says.exists_cons {text : String} {value : Value} (h : Says text value) :
    ∃ c cs, text.toList = c :: cs ∧ c ≠ ']' := by
  have hbracket : ∀ n cs, readValue n (']' :: cs) = none := by
    intro n cs
    cases n <;> rfl
  cases htext : text.toList with
  | nil =>
    have hread := h.reads 1 [']'] (by simp [htext]) (by simp)
    rw [htext, List.nil_append, hbracket] at hread
    cases hread
  | cons c cs =>
    refine ⟨c, cs, rfl, ?_⟩
    rintro rfl
    have hread := h.reads _ [] (Nat.le_refl _) (by simp)
    rw [htext, List.append_nil, hbracket] at hread
    cases hread

section Items

variable {n : Nat} {chars fields rest : List Char} {item : Value}

private theorem readItems_comma (h : readValue n chars = some (item, ',' :: rest)) :
    readItems (n + 1) chars = (readItems n rest).map fun (items, rest) => (item :: items, rest) := by
  rw [readItems, h]
  rfl

private theorem readItems_bracket (h : readValue n chars = some (item, ']' :: rest)) :
    readItems (n + 1) chars = some ([item], rest) := by
  rw [readItems, h]
  rfl

private theorem readKey_string {key : String} (h : (key.toList.flatMap escapeChar).length < n)
    (rest : List Char) :
    readKey n ((string key).toList ++ ':' :: rest) = some (key, rest) := by
  have hchars := readChars_flatMap key.toList (':' :: rest) h
  rw [toList_string, List.cons_append, List.append_assoc, List.singleton_append, readKey, hchars]
  simp

private theorem readFields_comma {key : String} (hkey : readKey n fields = some (key, chars))
    (h : readValue n chars = some (item, ',' :: rest)) :
    readFields (n + 1) fields =
      (readFields n rest).map fun (fields, rest) => ((key, item) :: fields, rest) := by
  rw [readFields, hkey, Option.bind_some]
  dsimp only
  rw [h]
  rfl

private theorem readFields_brace {key : String} (hkey : readKey n fields = some (key, chars))
    (h : readValue n chars = some (item, '\x7d' :: rest)) :
    readFields (n + 1) fields = some ([(key, item)], rest) := by
  rw [readFields, hkey, Option.bind_some]
  dsimp only
  rw [h]
  rfl

end Items

section Lists

variable {α : Type} {text : α → String} {value : α → Value}

private theorem readItems_written (a : α) (as : List α) (h : ∀ b ∈ a :: as, Says (text b) (value b)) {n : Nat}
    (rest : List Char)
    (hlength : ((text a).toList ++ as.flatMap fun b => ',' :: (text b).toList).length < n) :
    readItems n ((text a).toList ++ (as.flatMap (fun b => ',' :: (text b).toList) ++ ']' :: rest)) =
      some ((a :: as).map value, rest) := by
  obtain ⟨n, rfl⟩ : ∃ m, n = m + 1 := ⟨n - 1, by omega⟩
  induction as generalizing a n with
  | nil =>
    simp only [List.flatMap_nil, List.append_nil] at hlength
    exact readItems_bracket ((h a List.mem_cons_self).reads n (']' :: rest) (by omega) (by simp))
  | cons b as ih =>
    simp only [List.flatMap_cons, List.length_append, List.length_cons] at hlength
    obtain ⟨n, rfl⟩ : ∃ m, n = m + 1 := ⟨n - 1, by omega⟩
    have hitems := ih b (fun c hc => h c (List.mem_cons_of_mem a hc)) n
      (by rw [List.length_append]; omega)
    simp only [List.flatMap_cons, List.cons_append, List.append_assoc]
    rw [readItems_comma ((h a List.mem_cons_self).reads (n + 1) (',' :: _) (by omega) (by simp)), hitems]
    rfl

theorem says_array (items : List α) (h : ∀ a ∈ items, Says (text a) (value a)) :
    Says (array (items.map text)) (.array (items.map value)) := by
  cases items with
  | nil =>
    constructor
    · intro n rest hlength _
      rw [List.map_nil, toList_array_nil] at hlength ⊢
      obtain ⟨n, rfl⟩ : ∃ m, n = m + 1 := ⟨n - 1, by simp at hlength; omega⟩
      rfl
    · rw [List.map_nil]
      exact plain_of_all (by decide)
  | cons a as =>
    obtain ⟨c, cs, hcs, hc⟩ := (h a List.mem_cons_self).exists_cons
    constructor
    · intro n rest hlength _
      rw [List.map_cons, toList_array_cons, List.flatMap_map] at hlength ⊢
      simp only [List.length_cons, List.length_append] at hlength
      obtain ⟨n, rfl⟩ : ∃ m, n = m + 1 := ⟨n - 1, by omega⟩
      have hitems := readItems_written a as h (n := n) rest (by rw [List.length_append]; omega)
      simp only [List.cons_append, List.append_assoc, List.nil_append]
      rw [hcs, List.cons_append] at hitems ⊢
      rw [readValue, hitems]
      · rfl
      · simpa using hc
    · intro d hd
      rw [List.map_cons, toList_array_cons, List.flatMap_map] at hd
      simp only [List.mem_cons, List.mem_append, List.mem_flatMap, List.not_mem_nil, or_false] at hd
      rcases hd with rfl | hd | ⟨b, hb, rfl | hd⟩ | rfl
      · decide
      · exact (h a List.mem_cons_self).plain d hd
      · decide
      · exact (h b (List.mem_cons_of_mem a hb)).plain d hd
      · decide

end Lists

section Fields

/-- A field of an object, with a text for its value and what the text says. -/
structure Field where
  key : String
  text : String
  value : Value
  written : Says text value

def Field.chars (field : Field) : List Char := (string field.key).toList ++ ':' :: field.text.toList

private theorem Field.length_chars (field : Field) :
    field.chars.length = (field.key.toList.flatMap escapeChar).length + field.text.toList.length + 3 := by
  rw [Field.chars, toList_string, List.length_append, List.length_cons, List.length_cons, List.length_append,
    List.length_singleton]
  omega

private theorem Field.plain (field : Field) : ∀ c ∈ field.chars, 0x20 ≤ c.toNat := by
  intro c hc
  rw [Field.chars, List.mem_append, List.mem_cons] at hc
  rcases hc with hc | rfl | hc
  · exact (says_string field.key).plain c hc
  · decide
  · exact field.written.plain c hc

private theorem toList_object_cons (field : Field) (fields : List Field) :
    (object ((field :: fields).map fun f => (f.key, f.text))).toList =
      '\x7b' :: (field.chars ++ (fields.flatMap (fun f => ',' :: f.chars) ++ ['\x7d'])) := by
  have hchars : ∀ f : Field, (string f.key ++ ":" ++ f.text).toList = f.chars := by
    intro f
    simp [Field.chars]
  rw [object, List.map_map, List.map_cons, String.toList_append, String.toList_append,
    toList_intercalate_cons, List.flatMap_map]
  simp only [Function.comp_apply, hchars]
  simp

private theorem readFields_written (f : Field) (fs : List Field) {n : Nat} (rest : List Char)
    (hlength : (f.chars ++ fs.flatMap fun g => ',' :: g.chars).length < n) :
    readFields n (f.chars ++ (fs.flatMap (fun g => ',' :: g.chars) ++ '\x7d' :: rest)) =
      some ((f :: fs).map fun g => (g.key, g.value), rest) := by
  obtain ⟨n, rfl⟩ : ∃ m, n = m + 1 := ⟨n - 1, by omega⟩
  induction fs generalizing f n with
  | nil =>
    rw [List.flatMap_nil, List.append_nil, f.length_chars] at hlength
    rw [List.flatMap_nil, List.nil_append, Field.chars, List.append_assoc, List.cons_append]
    have hvalue := f.written.reads n ('\x7d' :: rest) (by omega) (by simp)
    exact readFields_brace (readKey_string (by omega) _) hvalue
  | cons g fs ih =>
    simp only [List.flatMap_cons, List.length_append, List.length_cons, f.length_chars] at hlength
    obtain ⟨n, rfl⟩ : ∃ m, n = m + 1 := ⟨n - 1, by omega⟩
    have hfields := ih g n (by rw [List.length_append]; omega)
    rw [Field.chars, List.append_assoc, List.cons_append]
    simp only [List.flatMap_cons, List.cons_append, List.append_assoc]
    rw [readFields_comma (readKey_string (by omega) _)
      (f.written.reads (n + 1) (',' :: _) (by omega) (by simp)), hfields]
    rfl

theorem says_object (fields : List Field) :
    Says (object (fields.map fun f => (f.key, f.text))) (.object (fields.map fun f => (f.key, f.value))) := by
  cases fields with
  | nil =>
    constructor
    · intro n rest hlength _
      obtain ⟨n, rfl⟩ : ∃ m, n = m + 1 := ⟨n - 1, by simp [object] at hlength; omega⟩
      rfl
    · exact plain_of_all (by decide)
  | cons f fs =>
    constructor
    · intro n rest hlength _
      rw [toList_object_cons] at hlength ⊢
      simp only [List.length_cons, List.length_append] at hlength
      obtain ⟨n, rfl⟩ : ∃ m, n = m + 1 := ⟨n - 1, by omega⟩
      have hfields := readFields_written f fs (n := n) rest (by rw [List.length_append]; omega)
      simp only [List.cons_append, List.append_assoc, List.nil_append]
      rw [Field.chars, toList_string, List.cons_append, List.cons_append] at hfields ⊢
      rw [readValue, hfields]
      · rfl
      · simp
    · intro d hd
      rw [toList_object_cons] at hd
      simp only [List.mem_cons, List.mem_append, List.mem_flatMap, List.not_mem_nil, or_false] at hd
      rcases hd with rfl | hd | ⟨g, -, rfl | hd⟩ | rfl
      · decide
      · exact f.plain d hd
      · decide
      · exact g.plain d hd
      · decide

end Fields

end CaretContext.Json
