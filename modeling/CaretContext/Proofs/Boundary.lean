import CaretContext.Source

/-!
# Character boundaries

A byte offset is a boundary when the text can be cut there. A span has a text exactly when it is not
reversed and both its ends are boundaries. Bytes of ASCII characters are part of no other encoding.
-/

namespace CaretContext

/-- Whether some number of leading characters takes up exactly `offset` bytes. -/
def IsBoundary (source : Source) (offset : Nat) : Prop :=
  ∃ before after, source.chars = before ++ after ∧ byteSize before = offset

theorem byteSize_replicate (n : Nat) (c : Char) : byteSize (List.replicate n c) = n * c.utf8Size := by
  induction n with
  | zero => simp [byteSize]
  | succ n ih => rw [List.replicate_succ, byteSize, ih, Nat.add_mul, Nat.one_mul, Nat.add_comm]

theorem byteSize_cons_pos (c : Char) (cs : List Char) : 0 < byteSize (c :: cs) := by
  have := c.utf8Size_pos
  rw [byteSize]
  omega

@[simp] theorem encode_nil : encode [] = [] := rfl

@[simp] theorem encode_cons (c : Char) (cs : List Char) :
    encode (c :: cs) = String.utf8EncodeChar c ++ encode cs := List.flatMap_cons

@[simp] theorem encode_append (as bs : List Char) : encode (as ++ bs) = encode as ++ encode bs :=
  List.flatMap_append

theorem drop_bytes {source : Source} {before rest : List Char} (h : source.chars = before ++ rest) :
    source.bytes.drop (byteSize before) = encode rest := by
  rw [Source.bytes, h, encode_append, ← length_encode before, List.drop_left]

/-! ### Bytes of characters -/

/-- A character is a byte of the same number, or has bytes beyond ASCII only. -/
theorem utf8EncodeChar_cases (c : Char) :
    (∃ b, String.utf8EncodeChar c = [b] ∧ b.toNat = c.toNat) ∨
      ∀ b ∈ String.utf8EncodeChar c, 128 ≤ b.toNat := by
  have hor : ∀ x mask : Nat, 128 ≤ mask → 128 ≤ x ||| mask := by
    intro x mask hmask
    exact Nat.le_trans hmask Nat.right_le_or
  rcases c.utf8Size_eq with h | h | h | h
  · left
    refine ⟨c.val.toUInt8, String.utf8EncodeChar_eq_singleton h, ?_⟩
    rw [Char.utf8Size_eq_one_iff, UInt32.le_iff_toNat_le] at h
    have hlt : c.val.toNat < 256 := Nat.lt_of_le_of_lt h (by decide)
    rw [UInt32.toNat_toUInt8, Nat.mod_eq_of_lt hlt]
    rfl
  · right
    simp [String.utf8EncodeChar_eq_cons_cons h, hor]
  · right
    simp [String.utf8EncodeChar_eq_cons_cons_cons h, hor]
  · right
    simp [String.utf8EncodeChar_eq_cons_cons_cons_cons h, hor]

theorem mem_of_mem_encode {cs : List Char} {b : UInt8} (h : b ∈ encode cs) (hb : b.toNat < 128) :
    ∃ c ∈ cs, c.toNat = b.toNat := by
  obtain ⟨c, hc, hmem⟩ := List.mem_flatMap.1 h
  refine ⟨c, hc, ?_⟩
  rcases utf8EncodeChar_cases c with ⟨b', hbytes, hnat⟩ | hbeyond
  · rw [hbytes, List.mem_singleton] at hmem
    rw [hmem, hnat]
  · have hle := hbeyond b hmem
    omega

theorem lineFeed_not_mem_encode {cs : List Char} (h : '\n' ∉ cs) : 10 ∉ encode cs := by
  intro hmem
  obtain ⟨c, hc, hnat⟩ := mem_of_mem_encode hmem (by decide)
  have hfeed : c = '\n' := Char.toNat_inj.1 hnat
  exact h (hfeed ▸ hc)

theorem head_utf8EncodeChar {c : Char} {b : UInt8} {rest : List UInt8}
    (h : (String.utf8EncodeChar c ++ rest).head? = some b) (hb : b.toNat < 128) :
    c.toNat = b.toNat := by
  have hne : String.utf8EncodeChar c ≠ [] := by
    rw [← List.length_pos_iff, String.length_utf8EncodeChar]
    exact c.utf8Size_pos
  obtain ⟨b', bytes, hbytes⟩ := List.exists_cons_of_ne_nil hne
  have hsame : b' = b := by simpa [hbytes] using h
  rcases utf8EncodeChar_cases c with ⟨byte, hsingle, hnat⟩ | hbeyond
  · rw [hsingle, List.cons.injEq] at hbytes
    rw [← hnat, hbytes.1, hsame]
  · have hle := hbeyond b' (by simp [hbytes])
    rw [hsame] at hle
    omega

/-! ### Cutting -/

/-- Text in front moves the place where the text is cut. -/
theorem dropBytes?_add (as bs : List Char) (n : Nat) :
    dropBytes? (as ++ bs) (n + byteSize as) = dropBytes? bs n := by
  induction as with
  | nil => rfl
  | cons a as ih =>
    have hpos := byteSize_cons_pos a as
    obtain ⟨m, hm⟩ : ∃ m, n + byteSize (a :: as) = m + 1 := ⟨n + byteSize (a :: as) - 1, by omega⟩
    have hsize : n + (a.utf8Size + byteSize as) = m + 1 := hm
    rw [hm, List.cons_append, dropBytes?, if_pos (by omega), ← ih]
    congr 1
    omega

theorem dropBytes?_append (as bs : List Char) : dropBytes? (as ++ bs) (byteSize as) = some bs := by
  have hcut := dropBytes?_add as bs 0
  rwa [Nat.zero_add, dropBytes?] at hcut

theorem takeBytes?_append (as bs : List Char) : takeBytes? (as ++ bs) (byteSize as) = some as := by
  induction as with
  | nil => simp [byteSize, takeBytes?]
  | cons a as ih =>
    obtain ⟨n, hn⟩ : ∃ n, byteSize (a :: as) = n + 1 :=
      ⟨_, (Nat.succ_pred_eq_of_pos (byteSize_cons_pos a as)).symm⟩
    have hsize : a.utf8Size + byteSize as = n + 1 := hn
    have hrest : n + 1 - a.utf8Size = byteSize as := by omega
    rw [hn, List.cons_append, takeBytes?, if_pos (by omega), hrest, ih]
    rfl

theorem eq_append_of_takeBytes? {cs as : List Char} {n : Nat} (h : takeBytes? cs n = some as) :
    ∃ bs, cs = as ++ bs ∧ byteSize as = n := by
  fun_induction takeBytes? cs n generalizing as with
  | case1 cs =>
    simp only [Option.some.injEq] at h
    subst h
    exact ⟨cs, rfl, rfl⟩
  | case2 => simp at h
  | case3 c cs n hsize ih =>
    obtain ⟨as, htake, rfl⟩ := Option.map_eq_some_iff.1 h
    obtain ⟨bs, rfl, hbytes⟩ := ih htake
    refine ⟨bs, rfl, ?_⟩
    rw [byteSize]
    omega
  | case4 => simp at h

private theorem append_eq_append_of_byteSize_le {as bs cs ds : List Char} (h : as ++ bs = cs ++ ds)
    (hle : byteSize as ≤ byteSize cs) : ∃ middle, cs = as ++ middle ∧ bs = middle ++ ds := by
  rcases List.append_eq_append_iff.1 h with ⟨middle, hcs, hbs⟩ | ⟨middle, has, hds⟩
  · exact ⟨middle, hcs, hbs⟩
  · cases middle with
    | nil => exact ⟨[], by simpa using has.symm, by simpa using hds.symm⟩
    | cons c middle =>
      have hpos := byteSize_cons_pos c middle
      rw [has, byteSize_append] at hle
      omega

private theorem append_inj_of_byteSize_eq {as bs cs ds : List Char} (h : as ++ bs = cs ++ ds)
    (heq : byteSize as = byteSize cs) : as = cs ∧ bs = ds := by
  obtain ⟨middle, rfl, rfl⟩ := append_eq_append_of_byteSize_le h (Nat.le_of_eq heq)
  cases middle with
  | nil => simp
  | cons c middle =>
    have hpos := byteSize_cons_pos c middle
    rw [byteSize_append] at heq
    omega

theorem eq_append_of_dropBytes? {cs bs : List Char} {n : Nat} (h : dropBytes? cs n = some bs) :
    ∃ as, cs = as ++ bs ∧ byteSize as = n := by
  fun_induction dropBytes? cs n generalizing bs with
  | case1 cs =>
    simp only [Option.some.injEq] at h
    exact ⟨[], h, rfl⟩
  | case2 => simp at h
  | case3 c cs n hsize ih =>
    obtain ⟨as, rfl, hbytes⟩ := ih h
    refine ⟨c :: as, rfl, ?_⟩
    rw [byteSize]
    omega
  | case4 => simp at h

/-- The text of a span stands behind what comes before the span. -/
theorem append_of_text? {source : Source} {before rest : List Char} {stop : Nat} {text : String}
    (hchars : source.chars = before ++ rest) (h : source.text? ⟨byteSize before, stop⟩ = some text) :
    ∃ after, rest = text.toList ++ after ∧ byteSize before + byteSize text.toList = stop := by
  obtain ⟨chars, hslice, rfl⟩ := Option.map_eq_some_iff.1 h
  rw [Source.slice?] at hslice
  split at hslice
  · rename_i hle
    rw [hchars, dropBytes?_append, Option.bind_some] at hslice
    obtain ⟨after, hrest, hsize⟩ := eq_append_of_takeBytes? hslice
    refine ⟨after, by simpa using hrest, ?_⟩
    dsimp only at hle hsize
    simp only [String.toList_ofList]
    omega
  · simp at hslice

/-- Where a span has a text, the source is cut there. -/
theorem exists_append_of_text? {source : Source} {start stop : Nat} {text : String}
    (h : source.text? ⟨start, stop⟩ = some text) :
    ∃ before after, source.chars = before ++ (text.toList ++ after) ∧ byteSize before = start ∧
      byteSize before + byteSize text.toList = stop := by
  obtain ⟨chars, hslice, -⟩ := Option.map_eq_some_iff.1 h
  rw [Source.slice?] at hslice
  split at hslice
  · obtain ⟨rest, hdrop, -⟩ := Option.bind_eq_some_iff.1 hslice
    obtain ⟨before, hchars, rfl⟩ := eq_append_of_dropBytes? hdrop
    obtain ⟨after, rfl, hstop⟩ := append_of_text? hchars h
    exact ⟨before, after, hchars, rfl, hstop⟩
  · simp at hslice

theorem eq_empty_iff_of_text? {source : Source} {start stop : Nat} {text : String}
    (h : source.text? ⟨start, stop⟩ = some text) : text = "" ↔ start = stop := by
  obtain ⟨before, after, -, hstart, hstop⟩ := exists_append_of_text? h
  rw [← String.toList_eq_nil_iff]
  cases htext : text.toList with
  | nil =>
    rw [htext, byteSize] at hstop
    simp only [true_iff]
    omega
  | cons c cs =>
    have hpos := byteSize_cons_pos c cs
    rw [htext] at hstop
    simp only [reduceCtorEq, false_iff]
    omega

/-- Of two spans with the same end, the text of the shorter one ends that of the longer one. -/
theorem suffix_of_text? {source : Source} {start start' stop : Nat} {text text' : String}
    (h : source.text? ⟨start, stop⟩ = some text) (h' : source.text? ⟨start', stop⟩ = some text')
    (hle : start ≤ start') : text'.toList <:+ text.toList := by
  obtain ⟨before, after, hchars, hstart, hstop⟩ := exists_append_of_text? h
  obtain ⟨before', after', hchars', hstart', hstop'⟩ := exists_append_of_text? h'
  obtain ⟨middle, rfl, hrest⟩ :=
    append_eq_append_of_byteSize_le (hchars ▸ hchars') (by rw [hstart, hstart']; exact hle)
  rw [← List.append_assoc middle] at hrest
  have hsize : byteSize text.toList = byteSize (middle ++ text'.toList) := by
    rw [byteSize_append] at hstop' ⊢
    omega
  exact ⟨middle, (append_inj_of_byteSize_eq hrest hsize).1.symm⟩

theorem text?_of_append {source : Source} {before chars after : List Char}
    (h : source.chars = before ++ chars ++ after) :
    source.text? ⟨byteSize before, byteSize before + byteSize chars⟩ = some (String.ofList chars) := by
  have hlength : byteSize before + byteSize chars - byteSize before = byteSize chars := by omega
  rw [Source.text?, Source.slice?, if_pos (Nat.le_add_right _ _), h, List.append_assoc, dropBytes?_append,
    Option.bind_some, hlength, takeBytes?_append]
  rfl

namespace IsBoundary

variable {source : Source} {a b : Nat}

theorem zero (source : Source) : IsBoundary source 0 := ⟨[], source.chars, rfl, rfl⟩

theorem le_byteLength (h : IsBoundary source a) : a ≤ source.byteLength := by
  obtain ⟨before, after, hchars, hsize⟩ := h
  rw [Source.byteLength, hchars, byteSize_append]
  omega

/-- Two boundaries in order cut the text in three, and the middle part is that of the span. -/
theorem slice? (ha : IsBoundary source a) (hb : IsBoundary source b) (hle : a ≤ b) :
    ∃ before middle after, source.chars = before ++ middle ++ after ∧ byteSize before = a ∧
      byteSize middle = b - a ∧ source.slice? ⟨a, b⟩ = some middle := by
  obtain ⟨before, rest, hchars, hsize⟩ := ha
  obtain ⟨through, after, hchars', hsize'⟩ := hb
  obtain ⟨middle, rfl, rfl⟩ :=
    append_eq_append_of_byteSize_le (hchars ▸ hchars') (by rw [hsize, hsize']; exact hle)
  rw [byteSize_append] at hsize'
  refine ⟨before, middle, after, hchars', hsize, by omega, ?_⟩
  have hmiddle : b - a = byteSize middle := by omega
  rw [Source.slice?, if_pos hle, hchars, ← hsize, dropBytes?_append, Option.bind_some, hsize, hmiddle,
    takeBytes?_append]

theorem text?_isSome (ha : IsBoundary source a) (hb : IsBoundary source b) (hle : a ≤ b) :
    (source.text? ⟨a, b⟩).isSome = true := by
  obtain ⟨before, middle, after, -, -, -, hslice⟩ := ha.slice? hb hle
  rw [Source.text?, hslice]
  rfl

end IsBoundary

end CaretContext
