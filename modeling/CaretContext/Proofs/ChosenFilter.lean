import CaretContext.LogFilter

/-!
# The log filter in force

A filter that has been read can be written and read again. So the one in force, put into the environment, is
in force again, whatever the settings say.
-/

namespace CaretContext

private theorem not_mem_of_mem_splitOn {sep : Char} {cs part : List Char} (h : part ∈ cs.splitOn sep) :
    sep ∉ part := by
  induction cs generalizing part with
  | nil =>
    rw [List.splitOn_nil, List.mem_singleton] at h
    simp [h]
  | cons c cs ih =>
    obtain ⟨first, rest, hparts⟩ := List.exists_cons_of_ne_nil (List.splitOn_ne_nil sep cs)
    rw [hparts] at ih
    rw [List.splitOn_cons_eq_if_modifyHead, hparts] at h
    split at h
    · rcases List.mem_cons.1 h with rfl | h
      · simp
      · exact ih h
    · rename_i hc
      rcases List.mem_cons.1 h with rfl | h
      · have hne : sep ≠ c := by
          rintro rfl
          simp at hc
        exact List.not_mem_cons_of_ne_of_not_mem hne (ih List.mem_cons_self)
      · exact ih (List.mem_cons_of_mem _ h)

namespace LogLevel

private theorem ofText?_name (level : LogLevel) : ofText? level.name = some level := by
  cases level <;> decide

private theorem not_mem_name (level : LogLevel) : '=' ∉ level.name.toList := by
  cases level <;> decide

private theorem name_ne_empty (level : LogLevel) : level.name ≠ "" := by
  cases level <;> decide

end LogLevel

namespace LogFilter

/-- Whether the target, if there is one, can be written. -/
def IsWritable (filter : LogFilter) : Prop :=
  ∀ target ∈ filter.target, isTarget target = true ∧ '=' ∉ target.toList

private theorem not_mem_of_mem_parts {text part : String}
    (h : part ∈ (text.toList.splitOn '=').map String.ofList) : '=' ∉ part.toList := by
  obtain ⟨cs, hcs, rfl⟩ := List.mem_map.1 h
  rw [String.toList_ofList]
  exact not_mem_of_mem_splitOn hcs

private theorem isWritable_of_parse? {text : String} {filter : LogFilter} (h : parse? text = some filter) :
    filter.IsWritable := by
  have hparts := fun part => @not_mem_of_mem_parts text part
  unfold parse? at h
  split at h
  · obtain rfl := Option.some.inj h
    simp [IsWritable]
  · rename_i word _ hword
    split at h
    · obtain rfl := Option.some.inj h
      simp [IsWritable]
    · split at h
      · rename_i htarget
        obtain rfl := Option.some.inj h
        simpa [IsWritable, htarget] using hparts word (by simp [hword])
      · cases h
  · rename_i target level hwords
    have hequals := hparts target (by simp [hwords])
    split at h
    · rename_i htarget
      split at h
      · obtain rfl := Option.some.inj h
        simpa [IsWritable, htarget] using hequals
      · obtain ⟨level, -, rfl⟩ := Option.map_eq_some_iff.1 h
        simpa [IsWritable, htarget] using hequals
    · cases h
  · cases h

private theorem IsWritable.parse?_text {filter : LogFilter} (h : filter.IsWritable) :
    parse? filter.text = some filter := by
  obtain ⟨target, level⟩ := filter
  cases target with
  | none => cases level <;> decide +kernel
  | some target =>
    obtain ⟨htarget, hequals⟩ := h target rfl
    have hparts : ((target ++ "=" ++ level.name).toList.splitOn '=').map String.ofList =
        [target, level.name] := by
      have hchars : (target ++ "=" ++ level.name).toList = target.toList ++ '=' :: level.name.toList := by
        simp
      rw [hchars, List.splitOn_append_cons_self_of_not_mem hequals,
        List.splitOn_eq_singleton level.not_mem_name]
      simp
    rw [text, parse?, hparts]
    simp [htarget, level.name_ne_empty, level.ofText?_name]

/-- The filter in force is what its text says, and keeps in force if that is put into the environment. -/
theorem choose_choose (environment : Option String) (setting setting' : String) :
    parse? (choose environment setting).text = some (choose environment setting) ∧
      choose (some (choose environment setting).text) setting' = choose environment setting := by
  have hwritable : (choose environment setting).IsWritable := by
    rw [choose]
    cases hfound : (environment.bind parse?).or (parse? setting) with
    | none => simp [IsWritable]
    | some filter =>
      rcases Option.or_eq_some_iff.1 hfound with henvironment | ⟨-, hsetting⟩
      · obtain ⟨text, -, htext⟩ := Option.bind_eq_some_iff.1 henvironment
        exact isWritable_of_parse? htext
      · exact isWritable_of_parse? hsetting
  have hparse := hwritable.parse?_text
  refine ⟨hparse, ?_⟩
  rw [choose, Option.bind_some, hparse]
  rfl

-- A filter that cannot be read is passed over, and so is a setting that is no level.
example : choose (some "a=b=c") "phpcursor=INFO" = ⟨some "phpcursor", .info⟩ ∧
    choose none "not a level ===" = ⟨none, .warn⟩ := by
  decide +kernel

end LogFilter

end CaretContext
