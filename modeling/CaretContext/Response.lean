import CaretContext.Query

/-!
# Response lines

An answer is written as one line of JSON with two fields: whether there was a result, and the
result. Nothing but control characters, quotes and backslashes is escaped.
-/

namespace CaretContext

/-- The result of a run. -/
inductive Payload where
  | scopeChain (labels : List String)
  | invocation (found : Invocation)
  /-- A selector or a message. -/
  | text (content : String)
deriving DecidableEq, Repr

structure Response where
  success : Bool
  payload : Payload
deriving DecidableEq, Repr

/-! ### JSON text -/

namespace Json

def hexDigit (n : Nat) : Char := Char.ofNat (if n < 10 then 48 + n else 87 + n)

def escapeChar (c : Char) : List Char :=
  if c = '"' then ['\\', '"']
  else if c = '\\' then ['\\', '\\']
  else if c = '\x08' then ['\\', 'b']
  else if c = '\x0c' then ['\\', 'f']
  else if c = '\n' then ['\\', 'n']
  else if c = '\r' then ['\\', 'r']
  else if c = '\t' then ['\\', 't']
  else if c.toNat < 0x20 then
    ['\\', 'u', '0', '0', hexDigit (c.toNat / 16), hexDigit (c.toNat % 16)]
  else [c]

def string (s : String) : String := "\"" ++ String.ofList (s.toList.flatMap escapeChar) ++ "\""

def boolean (b : Bool) : String := if b then "true" else "false"

def array (items : List String) : String := "[" ++ ",".intercalate items ++ "]"

def object (fields : List (String × String)) : String :=
  "\x7b" ++ ",".intercalate (fields.map fun (key, value) => string key ++ ":" ++ value) ++ "\x7d"

end Json

def Invocation.json (found : Invocation) : String :=
  Json.object [
    ("name", found.name.elim "null" Json.string),
    ("type", Json.string "function"),
    ("callStack", Json.array (found.callStack.map Json.string)),
    ("argumentIndex", toString found.argumentIndex),
    ("parameterListStartPos", toString found.parameterListStart)]

def Payload.json : Payload → String
  | scopeChain labels => Json.array (labels.map fun label => Json.object [("kind", Json.string label)])
  | invocation found => found.json
  | text content => Json.string content

namespace Response

def failure (message : String) : Response := ⟨false, .text message⟩

/-- The response to the outcome of a query. To be outside of any call is no success. -/
def ofOutcome : Except QueryError Answer → Response
  | .ok (.scopeChain chain) => ⟨true, .scopeChain chain.labels⟩
  | .ok (.selector text) => ⟨true, .text text⟩
  | .ok (.invocation found) => ⟨true, .invocation found⟩
  | .ok .noInvocation => failure "No invocation found!"
  | .error e => failure e.message

def json (response : Response) : String :=
  Json.object [("success", Json.boolean response.success), ("result", response.payload.json)]

end Response

end CaretContext
