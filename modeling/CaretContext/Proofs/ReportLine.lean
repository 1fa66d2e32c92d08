import CaretContext.CommandLine
import CaretContext.Proofs.JsonText

/-!
# What a run prints

Whatever a command answers ends in a `Response`, and all its texts are written as JSON strings: messages,
paths and pieces of the source. So a response line never breaks, and a JSON reader gets back the response.
-/

namespace CaretContext

open Json (Says Value)

/-! ### Response lines as JSON -/

def Invocation.value (found : Invocation) : Value :=
  .object [
    ("name", found.name.elim .null .string),
    ("type", .string "function"),
    ("callStack", .array (found.callStack.map .string)),
    ("argumentIndex", .number found.argumentIndex),
    ("parameterListStartPos", .number found.parameterListStart)]

def Payload.value : Payload → Value
  | scopeChain labels => .array (labels.map fun label => .object [("kind", .string label)])
  | invocation found => found.value
  | text content => .string content

def Response.value (response : Response) : Value :=
  .object [("success", .boolean response.success), ("result", response.payload.value)]

private theorem says_name (name : Option String) : Says (name.elim "null" Json.string)
    (name.elim .null .string) := by
  cases name with
  | none => exact Json.says_null
  | some name => exact Json.says_string name

private theorem Invocation.says_json (found : Invocation) : Says found.json found.value :=
  Json.says_object [
    ⟨"name", _, _, says_name found.name⟩,
    ⟨"type", _, _, Json.says_string "function"⟩,
    ⟨"callStack", _, _, Json.says_array found.callStack fun label _ => Json.says_string label⟩,
    ⟨"argumentIndex", _, _, Json.says_number found.argumentIndex⟩,
    ⟨"parameterListStartPos", _, _, Json.says_number found.parameterListStart⟩]

private theorem says_label (label : String) :
    Says (Json.object [("kind", Json.string label)]) (.object [("kind", .string label)]) :=
  Json.says_object [⟨"kind", _, _, Json.says_string label⟩]

private theorem Payload.says_json (payload : Payload) : Says payload.json payload.value := by
  cases payload with
  | scopeChain labels => exact Json.says_array labels fun label _ => says_label label
  | invocation found => exact found.says_json
  | text content => exact Json.says_string content

private theorem Response.says_json (response : Response) : Says response.json response.value :=
  Json.says_object [
    ⟨"success", _, _, Json.says_boolean response.success⟩,
    ⟨"result", _, _, response.payload.says_json⟩]

namespace CommandLine

/-! ### Reports -/

structure Report.IsUsageError (report : Report) : Prop where
  silent : report.output = ""
  exitCode_eq : report.exitCode = 2

/-- Whether the report is one line that says the response in JSON and nothing else, with the code that tells
whether it was a success. The control characters are those that JSON keeps out of a text, line breaks among
them. -/
structure Report.Answers (report : Report) (response : Response) (line : String) : Prop where
  output_eq : report.output = line ++ "\n"
  plain : ∀ c ∈ line.toList, 0x20 ≤ c.toNat
  reads : Json.read? line = some response.value
  exitCode_mem : report.exitCode = 0 ∨ report.exitCode = 1
  exitCode_eq_zero : report.exitCode = 0 ↔ response.success = true

private theorem answers_ofResponse (response : Response) :
    (Report.ofResponse response).Answers response response.json where
  output_eq := rfl
  plain := response.says_json.plain
  reads := response.says_json.read?
  exitCode_mem := by
    rw [Report.ofResponse]
    cases response.success <;> simp
  exitCode_eq_zero := by
    rw [Report.ofResponse]
    cases response.success <;> simp

private theorem Report.Answers.not_isUsageError {report : Report} {response : Response} {line : String}
    (h : report.Answers response line) : ¬ report.IsUsageError := by
  intro herror
  have hcode := h.exitCode_mem
  rw [herror.exitCode_eq] at hcode
  omega

/-- A run that is not about help or the version either fails to make sense of its arguments, and prints
nothing, or prints one line with the response to its command. It never does both. The line is JSON whatever
stands at the paths, in the source, in the names of the files and in the words about a malformed settings
file. -/
theorem run_prints_one_line (s : Surroundings) (arguments : List String) (complaint : String → String)
    (hhelp : parse arguments ≠ .help) (hversion : parse arguments ≠ .version) :
    (parse arguments = .usageError ∧ (run s arguments complaint).IsUsageError ∨
      ∃ command, parse arguments = .run command ∧
        ∃ line, (run s arguments complaint).Answers (respond complaint s command) line) ∧
    ¬ ((run s arguments complaint).IsUsageError ∧
      ∃ response line, (run s arguments complaint).Answers response line) := by
  constructor
  · cases hparse : parse arguments with
    | run command =>
      refine .inr ⟨command, rfl, (respond complaint s command).json, ?_⟩
      rw [run, hparse]
      exact answers_ofResponse _
    | usageError =>
      refine .inl ⟨rfl, ?_⟩
      rw [run, hparse]
      exact ⟨rfl, rfl⟩
    | help => exact absurd hparse hhelp
    | version => exact absurd hparse hversion
  · rintro ⟨herror, response, line, h⟩
    exact h.not_isUsageError herror

/-- A settings file at every path, with a table that is not closed. -/
def unclosedTable : Surroundings where
  file _ := .content "[scan".toUTF8
  input := ByteArray.empty
  user := ⟨"", .missing⟩

/-- The line feeds in the path and in the words about the file stay inside of the line. -/
theorem run_unclosedTable :
    let arguments := ["--config", "a\nb", "invocation"]
    let report := run unclosedTable arguments fun _ => "line 1\n"
    parse arguments ≠ .help ∧ parse arguments ≠ .version ∧
    report = ⟨"\x7b\"success\":false,\"result\":\"invalid config file a\\nb: line 1\\n\"\x7d\n", 1⟩ ∧
    ((parse arguments = .usageError ∧ report.IsUsageError ∨
      ∃ command, parse arguments = .run command ∧
        ∃ line, report.Answers (respond (fun _ => "line 1\n") unclosedTable command) line) ∧
      ¬ (report.IsUsageError ∧ ∃ response line, report.Answers response line)) := by
  intro arguments report
  have hhelp : parse arguments ≠ .help := by decide +kernel
  have hversion : parse arguments ≠ .version := by decide +kernel
  refine ⟨hhelp, hversion, by decide +kernel, ?_⟩
  exact run_prints_one_line unclosedTable arguments _ hhelp hversion

end CommandLine

end CaretContext
