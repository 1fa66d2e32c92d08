import CaretContext.FileTree

/-!
# Files at their paths

A tree of files has at every path what was given there, if the paths are plain and no file is given inside of
another. Whatever a path goes through is a directory if anything is given at the end.
-/

namespace CaretContext.FileTree

def IsPlainPath (path : String) : Prop := ∀ name ∈ namesOf path, name ≠ "" ∧ name ≠ "." ∧ name ≠ ".."

/-- Whether no file is given twice, or inside of another one. -/
def AreApart (files : List (String × FileState)) : Prop :=
  ∀ file ∈ files, ∀ file' ∈ files, placeOf file.1 <:+ placeOf file'.1 → file = file'

private theorem enter_plain {name : String} (h : name ≠ "" ∧ name ≠ "." ∧ name ≠ "..") (place : Place) :
    place.enter name = name :: place := by
  simp [Place.enter, h]

variable {tree : FileTree}

private theorem stateAt_of_lookup {place : Place} (h : tree.files.lookup place = none) :
    tree.stateAt place = .directory ∨ tree.stateAt place = .missing := by
  rw [stateAt, h]
  dsimp only
  split
  · exact .inl rfl
  · exact .inr rfl

/-- Names are followed to the end, unless nothing is there to look one of them up in. -/
theorem follow_plain {place : Place} {names : List String}
    (hplain : ∀ name ∈ names, name ≠ "" ∧ name ≠ "." ∧ name ≠ "..")
    (hholders : ∀ front back, names = front ++ back → back ≠ [] →
      tree.files.lookup (front.reverse ++ place) = none) :
    tree.follow place names = .ok (names.reverse ++ place) ∨
      tree.follow place names = .error .notFound ∧ ∃ front back, names = front ++ back ∧ back ≠ [] ∧
        tree.stateAt (front.reverse ++ place) = .missing := by
  induction names generalizing place with
  | nil => exact .inl (by simp [follow])
  | cons name names ih =>
    rw [follow]
    rcases stateAt_of_lookup (hholders [] (name :: names) rfl (by simp)) with hstate | hstate
    · rw [List.reverse_nil, List.nil_append] at hstate
      rw [hstate, enter_plain (hplain name (by simp))]
      have hplain' : ∀ name' ∈ names, name' ≠ "" ∧ name' ≠ "." ∧ name' ≠ ".." :=
        fun name' h => hplain name' (by simp [h])
      have hfollow := @ih (name :: place) hplain' fun front back hsplit => by
        have hholder := hholders (name :: front) back (by simp [hsplit])
        simpa using hholder
      refine hfollow.imp (fun hok => by simpa using hok) ?_
      rintro ⟨herror, front, back, rfl, hback, hmissing⟩
      exact ⟨herror, name :: front, back, by simp, hback, by simpa using hmissing⟩
    · rw [List.reverse_nil, List.nil_append] at hstate
      rw [hstate]
      exact .inr ⟨rfl, [], name :: names, rfl, by simp, hstate⟩

section Given

variable {files : List (String × FileState)} {path : String} {state : FileState}

private theorem lookup_ofPaths (hapart : AreApart files) (hfile : (path, state) ∈ files) :
    (ofPaths files).files.lookup (placeOf path) = some state := by
  cases hlookup : (ofPaths files).files.lookup (placeOf path) with
  | none =>
    have hnone := List.lookup_eq_none_iff.1 hlookup (placeOf path, state)
      (List.mem_map.2 ⟨(path, state), hfile, rfl⟩)
    simp at hnone
  | some found =>
    obtain ⟨before, after, hfiles, -⟩ := List.lookup_eq_some_iff.1 hlookup
    have hmem : (placeOf path, found) ∈ (ofPaths files).files := by simp [hfiles]
    obtain ⟨⟨path', state'⟩, hfile', hsame⟩ := List.mem_map.1 hmem
    obtain ⟨hplace, rfl⟩ := Prod.mk.inj hsame
    obtain ⟨-, rfl⟩ := Prod.mk.inj (hapart _ hfile _ hfile' (by simp [hplace]))
    rfl

private theorem lookup_holder (hapart : AreApart files) (hfile : (path, state) ∈ files)
    {front back : List String} (hnames : namesOf path = front ++ back) (hback : back ≠ []) :
    (ofPaths files).files.lookup front.reverse = none := by
  rw [List.lookup_eq_none_iff]
  intro file hmem
  obtain ⟨⟨path', state'⟩, hfile', rfl⟩ := List.mem_map.1 hmem
  simp only [bne_iff_ne, ne_eq]
  intro hplace
  have hsuffix : placeOf path' <:+ placeOf path := by
    rw [← hplace, placeOf, hnames, List.reverse_append]
    exact List.suffix_append _ _
  obtain ⟨rfl, -⟩ := Prod.mk.inj (hapart _ hfile' _ hfile hsuffix)
  rw [placeOf, hnames, List.reverse_append] at hplace
  have hlength := congrArg List.length hplace
  have hpos := List.length_pos_iff.2 hback
  simp only [List.length_append, List.length_reverse] at hlength
  omega

private theorem stateAt_holder (hapart : AreApart files) (hfile : (path, state) ∈ files)
    (hstate : state.isMissing = false) {front back : List String} (hnames : namesOf path = front ++ back)
    (hback : back ≠ []) : (ofPaths files).stateAt front.reverse = .directory := by
  rw [stateAt, lookup_holder hapart hfile hnames hback]
  dsimp only
  rw [if_pos]
  have hsuffix : front.reverse <:+ placeOf path := by
    rw [placeOf, hnames, List.reverse_append]
    exact List.suffix_append _ _
  have hholds : ∃ file ∈ (ofPaths files).files,
      (!file.2.isMissing && front.reverse.isSuffixOf file.1) = true := by
    refine ⟨(placeOf path, state), List.mem_map.2 ⟨(path, state), hfile, rfl⟩, ?_⟩
    simp [hstate, hsuffix]
  simp [List.any_eq_true.2 hholds]

/-- What stands at a path that was given is what was given there. -/
theorem state_ofPaths (hapart : AreApart files) (hfile : (path, state) ∈ files) (hplain : IsPlainPath path) :
    (ofPaths files).state path = state := by
  have hfind : (ofPaths files).find path = (ofPaths files).follow [] (namesOf path) := by
    rw [find]
    split
    · rename_i names hnames
      exact absurd rfl (hplain "" (by simp [hnames])).1
    · rfl
  have hfollow := @follow_plain (ofPaths files) [] _ hplain fun front back hnames hback => by
    rw [List.append_nil]
    exact lookup_holder hapart hfile hnames hback
  rw [List.append_nil, ← placeOf] at hfollow
  rw [FileTree.state, hfind]
  rcases hfollow with hok | ⟨herror, front, back, hnames, hback, hmissing⟩
  · simp only [hok, stateAt, lookup_ofPaths hapart hfile]
  · rw [herror]
    -- Something that is there would have made a directory of what is missing.
    cases hstate : state.isMissing with
    | true =>
      cases state with
      | missing => rfl
      | _ => cases hstate
    | false =>
      have hdirectory := stateAt_holder hapart hfile hstate hnames hback
      rw [List.append_nil, hdirectory] at hmissing
      cases hmissing

end Given

end CaretContext.FileTree
