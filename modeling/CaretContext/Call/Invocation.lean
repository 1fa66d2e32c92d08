import CaretContext.Call.MemberScan
import CaretContext.Node.Walk
import CaretContext.Source.Blank

/-!
# Invocations

The invocation at a caret offset is the innermost call around it: its name, its receiver chain as
written, the argument slot the caret is in, and where the parameter list begins.
-/

namespace CaretContext

inductive CallForm where
  | function
  | method
deriving DecidableEq, Repr

/-- What is reported of a call. -/
structure Invocation where
  name : Option String
  form : CallForm
  callStack : List String
  argumentIndex : Nat
  parameterListStart : Nat
deriving DecidableEq, Repr

/-- The visit that remembers the last call whose span contains the caret. -/
def callVisit (offset : Nat) : Visit (Option Node) := fun found node =>
  if Pruning.disjoint.skips node.span offset then (found, .skip)
  else if node.kind.isCall then (some node, .children)
  else (found, .children)

/-- The innermost call around the caret. Outer calls are visited first, so the last one seen is
the innermost. -/
def innermostCall? (roots : List Node) (offset : Nat) : Option Node :=
  walk (callVisit offset) none roots

/-- The text of an expression that a receiver chain starts from. -/
def terminalText (source : Source) (node : Node) : String :=
  match _h : node.kind with
  | .variable name => "$" ++ name
  | .identifier name => name
  | .functionCall callee _ => terminalText source callee ++ "()"
  | kind =>
    match source.slice? node.span with
    | some chars => String.ofList (trimBlank chars)
    | none => kind.label
termination_by sizeOf node
decreasing_by
  apply Node.sizeOf_lt_of_mem_children
  simp [Node.children, Kind.nodes, _h]

/-- The receiver chain of a call as written, the call itself last. -/
def callStack (source : Source) (node : Node) : List String :=
  match _h : node.kind with
  | .methodCall receiver _ member _ => callStack source receiver ++ [member.text ++ "()"]
  | .propertyAccess receiver _ member => callStack source receiver ++ [member.text]
  | .staticPropertyAccess _ property => [property]
  | _ => [terminalText source node]
termination_by sizeOf node
decreasing_by
  all_goals
    apply Node.sizeOf_lt_of_mem_children
    simp [Node.children, Kind.nodes, _h]

/-- How many arguments the caret has moved past. It is past an argument once it is beyond the byte
that follows the argument's last one, so a caret on the comma still belongs to the argument. -/
def argumentIndex (arguments : List Node) (offset : Nat) : Nat :=
  arguments.countP fun argument => decide (argument.span.last + 1 < offset)

/-- Where the parameter list of a method call begins. Only a dynamic member has to be looked up in
the text. -/
def parameterListStart (source : Source) (skipComments : Bool) (receiver : Node)
    (operator : AccessOperator) : Member Node → Except ScanError Nat
  | .named _ span => .ok span.stop
  | .variable node => .ok node.span.stop
  | .expression text _ => MemberScan.memberEnd ⟨source, operator, text, skipComments⟩ receiver.span.stop

/-- The description of a call, or nothing for a node that is no call. -/
def describeCall (source : Source) (skipComments : Bool) (offset : Nat) (call : Node) :
    Except ScanError (Option Invocation) :=
  match call.kind with
  | .functionCall callee arguments =>
    let name := match callee.kind with
      | .identifier name => some name
      | _ => none
    .ok (some ⟨name, .function, [terminalText source callee], argumentIndex arguments offset,
      callee.span.stop⟩)
  | .methodCall receiver operator member arguments =>
    (parameterListStart source skipComments receiver operator member).map fun start =>
      some ⟨member.identifier?, .method, callStack source call, argumentIndex arguments offset, start⟩
  | _ => .ok none

/-- The invocation of a forest at a caret offset, if the caret is inside a call. -/
def resolveInvocation (roots : List Node) (source : Source) (offset : Nat) (skipComments : Bool) :
    Except ScanError (Option Invocation) :=
  match innermostCall? roots offset with
  | some call => describeCall source skipComments offset call
  | none => .ok none

end CaretContext
