import CaretContext.Call.Invocation
import CaretContext.Php.Program
import CaretContext.ScopeChain
import CaretContext.Settings
import CaretContext.Source.Offset

/-!
# Queries

A query asks for the scope chain or the invocation at an offset of a source. It may come incomplete;
the parts are then missed in a fixed order: what is asked, the source, the offset.
-/

namespace CaretContext

inductive QueryMode where
  | scopeChain
  | invocation
deriving DecidableEq, Repr

/-- What is asked. The source is the text itself or, if it could not be read, the reason. -/
structure Query where
  mode : Option QueryMode
  source : Option (Except String Source)
  offset : Option Nat
  asSelector : Bool := false
  /-- Whether the offset counts characters instead of bytes. -/
  countsChars : Bool := false

/-- An answer that is not an error. -/
inductive Answer where
  | scopeChain (chain : ScopeChain)
  | selector (text : String)
  | invocation (found : Invocation)
  | noInvocation
deriving DecidableEq, Repr

/-- Why a query has no answer. -/
inductive QueryError where
  | missingMode
  | missingSource
  | missingOffset
  | unreadable (reason : String)
  | inconsistent (cause : ScanError)
deriving DecidableEq, Repr

def QueryError.message : QueryError → String
  | missingMode => "A query mode must be supplied!"
  | missingSource => "Either a --file must be supplied or --stdin must be passed!"
  | missingOffset => "An --offset must be supplied into the source code!"
  | unreadable reason => reason
  | inconsistent cause => "Inconsistent source text: " ++ cause.message

namespace Query

def scopeChain (source : Source) (offset : Nat) (asSelector : Bool) : Answer :=
  let chain := ScopeChain.resolve (Php.parse source) offset
  if asSelector then .selector chain.selector else .scopeChain chain

def invocation (skipComments : Bool) (source : Source) (offset : Nat) : Except QueryError Answer :=
  match resolveInvocation (Php.parse source) source offset skipComments with
  | .ok (some found) => .ok (.invocation found)
  | .ok none => .ok .noInvocation
  | .error cause => .error (.inconsistent cause)

def run (skipComments : Bool) (query : Query) : Except QueryError Answer :=
  match query.mode, query.source, query.offset with
  | none, _, _ => .error .missingMode
  | _, none, _ => .error .missingSource
  | _, _, none => .error .missingOffset
  | _, some (.error reason), _ => .error (.unreadable reason)
  | some mode, some (.ok source), some offset =>
    let offset := if query.countsChars then source.byteOffset offset else offset
    match mode with
    | .scopeChain => .ok (scopeChain source offset query.asSelector)
    | .invocation => invocation skipComments source offset

end Query

end CaretContext
