import CaretContext.Settings

/-!
# Layers of settings

A settings file is a document in which nothing but the known keys stands, each with a value of its type.
Loading takes every setting from the uppermost file that sets it, on its own, and fails with the first file
that is no such document. Only the user's file may be missing.
-/

namespace CaretContext

open Toml (Value Entries)

/-! ### Documents -/

namespace Toml

/-- What a section holds under its key. An array is read by position, so its first item is the value. -/
def Value.under? (key : String) : Value → Option Value
  | .table _ entries => entries.lookup key
  | .array items => items.head?
  | _ => none

def Value.IsSection (key : String) : Value → Prop
  | .table _ entries => ∀ entry ∈ entries, entry.1 = key
  | .array _ => True
  | _ => False

def Entries.setting? (entries : Entries) (name key : String) : Option Value :=
  (entries.lookup name).bind (Value.under? key)

end Toml

namespace Overlay

/-- Whether the overlay has what is found under the keys, and that has the right types. -/
structure IsFoundBy (overlay : Overlay) (setting? : String → String → Option Value) : Prop where
  level : setting? "logging" "level" = overlay.level.map .string
  skipComments : setting? "scan" "skip_comments" = overlay.skipComments.map .boolean

/-- Whether a document says what the overlay says, and nothing that is unknown. -/
structure IsSaidBy (overlay : Overlay) (entries : Entries) : Prop extends
    overlay.IsFoundBy entries.setting? where
  known : ∀ entry ∈ entries, entry.1 = "logging" ∨ entry.1 = "scan"
  logging : ∀ value ∈ entries.lookup "logging", value.IsSection "level"
  scan : ∀ value ∈ entries.lookup "scan", value.IsSection "skip_comments"

/-- Values of one type, read back by `read` and by nothing else. -/
def Reads {α : Type} (read : Value → Option α) (write : α → Value) : Prop :=
  ∀ value a, read value = some a ↔ value = write a

private theorem reads_string : Reads string? .string := by
  intro value text
  cases value <;> simp [string?]

private theorem reads_boolean : Reads boolean? .boolean := by
  intro value b
  cases value <;> simp [boolean?]

section Reading

variable {α : Type} {read : Value → Option α} {write : α → Value}

private theorem map_read_eq_some_iff (hread : Reads read write) {value : Value} {found : Option α} :
    (read value).map some = some found ↔ some value = found.map write := by
  cases found with
  | none => simp
  | some a => simp [hread value a]

private theorem sectionValue_eq_some_iff (hread : Reads read write) {key : String} {value : Value}
    {found : Option α} :
    sectionValue key read value = some found ↔
      value.IsSection key ∧ value.under? key = found.map write := by
  cases value with
  | table origin entries =>
    simp only [sectionValue, Value.IsSection, Value.under?, List.all_eq_true, decide_eq_true_eq]
    split
    · rename_i honly
      rw [and_iff_right honly]
      cases entries.lookup key with
      | none => cases found <;> simp
      | some value => exact map_read_eq_some_iff hread
    · rename_i hother
      exact iff_of_false (by simp) fun h => hother h.1
  | array items =>
    cases items with
    | nil => cases found <;> simp [sectionValue, Value.IsSection, Value.under?]
    | cons value items =>
      simpa [sectionValue, Value.IsSection, Value.under?] using map_read_eq_some_iff hread
  | _ => simp [sectionValue, Value.IsSection]

private theorem optionalSection_eq_some_iff (hread : Reads read write) {entries : Entries} {name key : String}
    {found : Option α} :
    optionalSection entries name key read = some found ↔
      (∀ value ∈ entries.lookup name, value.IsSection key) ∧
        entries.setting? name key = found.map write := by
  rw [optionalSection, Entries.setting?]
  cases entries.lookup name with
  | none => cases found <;> simp
  | some value => simpa using sectionValue_eq_some_iff hread

end Reading

private theorem ofEntries?_eq_some_iff {entries : Entries} {overlay : Overlay} :
    ofEntries? entries = some overlay ↔ overlay.IsSaidBy entries := by
  have hlevel := @optionalSection_eq_some_iff _ _ _ reads_string entries "logging" "level" overlay.level
  have hskip :=
    @optionalSection_eq_some_iff _ _ _ reads_boolean entries "scan" "skip_comments" overlay.skipComments
  rw [ofEntries?]
  simp only [List.all_eq_true, Bool.or_eq_true, decide_eq_true_eq]
  split
  · rename_i hknown
    constructor
    · intro h
      obtain ⟨level, hl, h⟩ := Option.bind_eq_some_iff.1 h
      obtain ⟨skip, hs, h⟩ := Option.bind_eq_some_iff.1 h
      obtain rfl : (⟨level, skip⟩ : Overlay) = overlay := Option.some.inj h
      exact ⟨⟨(hlevel.1 hl).2, (hskip.1 hs).2⟩, hknown, (hlevel.1 hl).1, (hskip.1 hs).1⟩
    · intro h
      rw [hlevel.2 ⟨h.logging, h.level⟩, hskip.2 ⟨h.scan, h.skipComments⟩]
      rfl
  · rename_i hunknown
    simp only [reduceCtorEq, false_iff]
    intro h
    exact hunknown h.known

private theorem parse?_eq_some_iff {text : String} {overlay : Overlay} :
    parse? text = some overlay ↔ ∃ entries, Toml.parse? text = some entries ∧ overlay.IsSaidBy entries := by
  simp only [parse?, Option.bind_eq_some_iff, ofEntries?_eq_some_iff]

end Overlay

/-! ### Files -/

/-- What stands where no text can be read, and why. -/
inductive FileState.IsUnreadable : FileState → ReadError → Prop
  | missing : IsUnreadable .missing .notFound
  | directory : IsUnreadable .directory .isDirectory
  | unreadable {cause : ReadError} (present : cause ≠ .notFound) :
      IsUnreadable (.unreadable cause present) cause
  | notText {bytes : ByteArray} (h : String.fromUTF8? bytes = none) : IsUnreadable (.content bytes) .notText

private theorem FileState.text_eq_error_iff {state : FileState} {cause : ReadError} :
    state.text = .error cause ↔ state.IsUnreadable cause := by
  constructor
  · intro h
    cases state with
    | missing => exact Except.error.inj h ▸ .missing
    | directory => exact Except.error.inj h ▸ .directory
    | unreadable cause present =>
      obtain rfl : cause = _ := Except.error.inj h
      exact .unreadable present
    | content bytes =>
      rw [FileState.text, textOf] at h
      split at h
      · exact absurd h (by simp)
      · rename_i hbytes
        exact Except.error.inj h ▸ .notText hbytes
  · intro h
    cases h with
    | notText hbytes => simp [FileState.text, textOf, hbytes]
    | _ => rfl

namespace SettingsFile

def document? (file : SettingsFile) : Option Entries :=
  match file.state with
  | .content bytes => (String.fromUTF8? bytes).bind Toml.parse?
  | _ => none

def setting? (file : SettingsFile) (name key : String) : Option Value :=
  file.document?.bind fun entries => entries.setting? name key

/-- Whether the document in the file says what the overlay says. -/
def Says (file : SettingsFile) (overlay : Overlay) : Prop :=
  ∃ entries, file.document? = some entries ∧ overlay.IsSaidBy entries

def IsOverlay (file : SettingsFile) : Prop := ∃ overlay, file.Says overlay

/-- What is wrong with a file without an overlay: its text cannot be read, or says no overlay. -/
inductive Fails (file : SettingsFile) : SettingsError → Prop
  | unreadable {cause : ReadError} (h : file.state.IsUnreadable cause) :
      Fails file (.unreadable file.path cause)
  | malformed (h : ∀ cause, ¬ file.state.IsUnreadable cause) (hoverlay : ¬ file.IsOverlay) :
      Fails file (.malformed file.path)

variable {file : SettingsFile} {overlay : Overlay} {e : SettingsError}

private theorem Says.isFoundBy (h : file.Says overlay) : overlay.IsFoundBy file.setting? := by
  obtain ⟨entries, hentries, hsaid⟩ := h
  have hsetting : file.setting? = entries.setting? := by
    funext name key
    rw [setting?, hentries, Option.bind_some]
  rw [hsetting]
  exact hsaid.toIsFoundBy

private theorem document?_eq (file : SettingsFile) :
    file.document? = file.state.text.toOption.bind Toml.parse? := by
  rw [document?]
  cases file.state with
  | content bytes =>
    simp only [FileState.text, textOf]
    cases String.fromUTF8? bytes <;> rfl
  | _ => rfl

private theorem overlay_eq_ok_iff : file.overlay = .ok overlay ↔ file.Says overlay := by
  rw [SettingsFile.overlay, Says, document?_eq]
  cases file.state.text with
  | error cause => simp [Except.toOption]
  | ok text =>
    have hparse := @Overlay.parse?_eq_some_iff text overlay
    simp only [Except.toOption, Option.bind_some, overlayOf, ← hparse]
    cases Overlay.parse? text <;> simp

private theorem fails_of_overlay (h : file.overlay = .error e) : file.Fails e := by
  have hnone : ¬ file.IsOverlay := by
    rintro ⟨overlay, hfile⟩
    rw [overlay_eq_ok_iff.2 hfile] at h
    cases h
  rw [SettingsFile.overlay] at h
  split at h
  · rename_i text htext
    rw [overlayOf] at h
    split at h
    · cases h
    · rw [← Except.error.inj h]
      apply Fails.malformed _ hnone
      intro cause hcause
      rw [FileState.text_eq_error_iff.2 hcause] at htext
      cases htext
  · rename_i cause htext
    rw [← Except.error.inj h]
    exact .unreadable (FileState.text_eq_error_iff.1 htext)

private theorem overlay_of_fails (h : file.Fails e) : file.overlay = .error e := by
  cases h with
  | unreadable hcause => rw [SettingsFile.overlay, FileState.text_eq_error_iff.2 hcause]
  | malformed hreadable hnone =>
    cases hfile : file.overlay with
    | ok overlay => exact absurd ⟨overlay, overlay_eq_ok_iff.1 hfile⟩ hnone
    | error found =>
      -- A file that can be read fails in one way only.
      cases fails_of_overlay hfile with
      | unreadable hcause => exact absurd hcause (hreadable _)
      | malformed => rfl

private theorem overlay_eq_error_iff : file.overlay = .error e ↔ file.Fails e :=
  ⟨fails_of_overlay, overlay_of_fails⟩

private theorem optionalOverlay_eq_ok_iff :
    file.optionalOverlay = .ok overlay ↔ file.state = .missing ∧ overlay = {} ∨ file.Says overlay := by
  rw [← overlay_eq_ok_iff, optionalOverlay]
  split
  · rename_i hstate
    simp [SettingsFile.overlay, hstate, FileState.text, eq_comm]
  · rename_i hstate
    simp [show file.state ≠ .missing from hstate]

private theorem optionalOverlay_eq_error_iff :
    file.optionalOverlay = .error e ↔ file.state ≠ .missing ∧ file.Fails e := by
  rw [← overlay_eq_error_iff, optionalOverlay]
  split
  · rename_i hstate
    simp [hstate]
  · rename_i hstate
    simp [show file.state ≠ .missing from hstate]

/-- The overlay in a file that may not have been given, in which case nothing is said. -/
def givenOverlay : Option SettingsFile → Except SettingsError Overlay
  | none => .ok {}
  | some file => file.overlay

private theorem exists_givenOverlay_iff {given : Option SettingsFile} :
    (∃ overlay, givenOverlay given = .ok overlay) ↔ ∀ file ∈ given, file.IsOverlay := by
  cases given with
  | none => simp [givenOverlay]
  | some file => simp [givenOverlay, IsOverlay, overlay_eq_ok_iff]

private theorem exists_optionalOverlay_iff :
    (∃ overlay, file.optionalOverlay = .ok overlay) ↔ file.state = .missing ∨ file.IsOverlay := by
  simp only [optionalOverlay_eq_ok_iff, exists_or, exists_and_left, exists_eq, and_true, IsOverlay]

private theorem givenOverlay_eq_error_iff {given : Option SettingsFile} :
    givenOverlay given = .error e ↔ ∃ file ∈ given, file.Fails e := by
  cases given with
  | none => simp [givenOverlay]
  | some file => simp [givenOverlay, overlay_eq_error_iff]

private theorem isFoundBy_of_optionalOverlay (h : file.optionalOverlay = .ok overlay) :
    overlay.IsFoundBy file.setting? := by
  rcases optionalOverlay_eq_ok_iff.1 h with ⟨hstate, rfl⟩ | hfile
  · have hnone : file.document? = none := by rw [document?, hstate]
    constructor <;> simp [setting?, hnone]
  · exact hfile.isFoundBy

private theorem isFoundBy_of_givenOverlay {given : Option SettingsFile} (h : givenOverlay given = .ok overlay) :
    overlay.IsFoundBy fun name key => given.bind (·.setting? name key) := by
  cases given with
  | none =>
    obtain rfl : ({} : Overlay) = overlay := Except.ok.inj h
    exact ⟨rfl, rfl⟩
  | some file => exact (overlay_eq_ok_iff.1 h).isFoundBy

end SettingsFile

/-! ### Loading -/

namespace Settings

open SettingsFile (givenOverlay)

@[simp] theorem apply_empty (settings : Settings) : settings.apply {} = settings := rfl

private theorem apply_apply (settings : Settings) (overlay : Overlay) :
    (settings.apply overlay).apply overlay = settings.apply overlay := by
  cases overlay with
  | mk level skipComments => cases level <;> cases skipComments <;> rfl

private theorem load_eq (user : SettingsFile) (explicit : Option SettingsFile) :
    load user explicit = user.optionalOverlay.bind fun lower =>
      (givenOverlay explicit).map fun upper => (Settings.apply {} lower).apply upper := by
  cases explicit <;> rfl

private theorem load_eq_ok_iff {user : SettingsFile} {explicit : Option SettingsFile} {settings : Settings} :
    load user explicit = .ok settings ↔ ∃ lower upper, user.optionalOverlay = .ok lower ∧
      givenOverlay explicit = .ok upper ∧ (Settings.apply {} lower).apply upper = settings := by
  rw [load_eq]
  cases user.optionalOverlay <;> cases givenOverlay explicit <;> simp [Except.bind, Except.map]

private theorem load_eq_error_iff {user : SettingsFile} {explicit : Option SettingsFile} {e : SettingsError} :
    load user explicit = .error e ↔ user.optionalOverlay = .error e ∨
      (∃ lower, user.optionalOverlay = .ok lower) ∧ givenOverlay explicit = .error e := by
  rw [load_eq]
  cases user.optionalOverlay <;> cases givenOverlay explicit <;> simp [Except.bind, Except.map]

/-- One setting in layers: what is written in the end is the uppermost of what was written. -/
theorem write_getD_getD {α : Type} (write : α → Value) (upper lower : Option α) (default : α) :
    write (upper.getD (lower.getD default)) =
      ((upper.map write).or (lower.map write)).getD (write default) := by
  cases upper <;> cases lower <;> rfl

/-- Settings are loaded exactly when the user's file is missing or has an overlay, and the explicit file is
not given or has one. Each setting then has the value that the explicit file sets it to, or else the user's,
or else its default. Otherwise the error is about the user's file, if that is there and has no overlay, and
about the explicit one if not, which must not be missing. To apply an overlay again changes nothing. -/
theorem load_in_layers (user : SettingsFile) (explicit : Option SettingsFile) :
    ((∃ settings, load user explicit = .ok settings) ↔
      (user.state = .missing ∨ user.IsOverlay) ∧ ∀ file ∈ explicit, file.IsOverlay) ∧
    (∀ settings, load user explicit = .ok settings →
      .string settings.level = ((explicit.bind (·.setting? "logging" "level")).or
        (user.setting? "logging" "level")).getD (.string "warn") ∧
      .boolean settings.skipComments = ((explicit.bind (·.setting? "scan" "skip_comments")).or
        (user.setting? "scan" "skip_comments")).getD (.boolean false)) ∧
    (∀ e, load user explicit = .error e ↔
      user.state ≠ .missing ∧ user.Fails e ∨
      (user.state = .missing ∨ user.IsOverlay) ∧ ∃ file ∈ explicit, file.Fails e) ∧
    (∀ (settings : Settings) (overlay : Overlay),
      (settings.apply overlay).apply overlay = settings.apply overlay) := by
  refine ⟨?_, ?_, ?_, apply_apply⟩
  · rw [← SettingsFile.exists_optionalOverlay_iff, ← SettingsFile.exists_givenOverlay_iff]
    constructor
    · rintro ⟨settings, h⟩
      obtain ⟨lower, upper, hlower, hupper, -⟩ := load_eq_ok_iff.1 h
      exact ⟨⟨lower, hlower⟩, upper, hupper⟩
    · rintro ⟨⟨lower, hlower⟩, upper, hupper⟩
      exact ⟨_, load_eq_ok_iff.2 ⟨lower, upper, hlower, hupper, rfl⟩⟩
  · intro settings h
    obtain ⟨lower, upper, hlower, hupper, rfl⟩ := load_eq_ok_iff.1 h
    have huser := SettingsFile.isFoundBy_of_optionalOverlay hlower
    have hexplicit := SettingsFile.isFoundBy_of_givenOverlay hupper
    rw [huser.level, hexplicit.level, huser.skipComments, hexplicit.skipComments]
    exact ⟨write_getD_getD .string _ _ _, write_getD_getD .boolean _ _ _⟩
  · intro e
    rw [load_eq_error_iff, SettingsFile.optionalOverlay_eq_error_iff,
      SettingsFile.exists_optionalOverlay_iff, SettingsFile.givenOverlay_eq_error_iff]

def bothSet : SettingsFile :=
  ⟨"config.toml", .content "[logging]\nlevel = \"debug\"\n[scan]\nskip_comments = true\n".toUTF8⟩

def emptySection : SettingsFile := ⟨"explicit.toml", .content "scan.skip_comments = false\n[logging]\n".toUTF8⟩

/-- A section without its key leaves the value from below, and the other setting is taken from above. -/
theorem load_bothSet_emptySection :
    load bothSet (some emptySection) = .ok ⟨"debug", false⟩ ∧
    .string "debug" = (((some emptySection).bind (·.setting? "logging" "level")).or
      (bothSet.setting? "logging" "level")).getD (.string "warn") ∧
    .boolean false = (((some emptySection).bind (·.setting? "scan" "skip_comments")).or
      (bothSet.setting? "scan" "skip_comments")).getD (.boolean false) := by
  have hload : load bothSet (some emptySection) = .ok ⟨"debug", false⟩ := by
    have hsome : (load bothSet (some emptySection)).toOption = some ⟨"debug", false⟩ := by decide +kernel
    generalize load bothSet (some emptySection) = answer at hsome
    cases answer with
    | error e => cases hsome
    | ok settings => rw [Option.some.inj hsome]
  obtain ⟨-, hvalues, -, -⟩ := load_in_layers bothSet (some emptySection)
  exact ⟨hload, hvalues _ hload⟩

end Settings

end CaretContext
