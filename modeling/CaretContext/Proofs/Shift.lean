import CaretContext.Call.Invocation

/-!
# Trees and answers moved by a number of bytes

Text put in front of a source moves every span of its tree. Here are the moved spans, trees and answers,
and what a move leaves alone: the tests of an offset against a span when the offset moves along, the
labels and categories, and how members are written.
-/

namespace CaretContext

variable (k : Nat)

def Span.shift (s : Span) : Span := ⟨s.start + k, s.stop + k⟩

mutual

/-- The tree with every span `k` bytes further on, those of member names included. -/
def Node.shift : Node → Node
  | ⟨kind, span, rest⟩ => ⟨kind.shift, span.shift k, shiftForest rest⟩

def Kind.shift : Kind Node → Kind Node
  | .classLike form => .classLike form
  | .functionLike form => .functionLike form
  | .controlFlow form => .controlFlow form
  | .statement form => .statement form
  | .expression form => .expression form
  | .glue form => .glue form
  | .functionCall callee arguments => .functionCall callee.shift (shiftForest arguments)
  | .methodCall receiver operator member arguments =>
    .methodCall receiver.shift operator member.shift (shiftForest arguments)
  | .propertyAccess receiver operator member => .propertyAccess receiver.shift operator member.shift
  | .staticPropertyAccess owner property => .staticPropertyAccess owner.shift property
  | .variable name => .variable name
  | .identifier name => .identifier name

def Member.shift : Member Node → Member Node
  | .named name span => .named name (span.shift k)
  | .variable node => .variable node.shift
  | .expression text node => .expression text node.shift

def shiftForest : List Node → List Node
  | [] => []
  | n :: ns => n.shift :: shiftForest ns

end

def ScanError.shift : ScanError → ScanError
  | .repeatedOperator found offset => .repeatedOperator found (offset + k)
  | .misplacedOperator found offset operator => .misplacedOperator found (offset + k) operator
  | .unexpectedToken found offset => .unexpectedToken found (offset + k)
  | .nameMismatch expected offset => .nameMismatch expected (offset + k)
  | .unexpectedEnd offset member => .unexpectedEnd (offset + k) member

/-- The call `k` bytes further on. Of what is reported only the parameter list has a place. -/
def Invocation.shift (i : Invocation) : Invocation :=
  { i with parameterListStart := i.parameterListStart + k }

/-- The answer `k` bytes further on, given how a result moves. -/
def shiftAnswer {α : Type} (move : α → α) : Except ScanError α → Except ScanError α
  | .ok result => .ok (move result)
  | .error cause => .error (cause.shift k)

theorem shiftForest_eq_map (ns : List Node) : shiftForest k ns = ns.map (Node.shift k) := by
  induction ns with
  | nil => rfl
  | cons n ns ih => rw [shiftForest, ih, List.map_cons]

/-! ### Spans and offsets -/

@[simp] theorem Span.start_shift (s : Span) : (s.shift k).start = s.start + k := rfl

@[simp] theorem Span.stop_shift (s : Span) : (s.shift k).stop = s.stop + k := rfl

@[simp] theorem Span.last_shift (s : Span) : (s.shift k).last = s.last + k := by
  simp only [last, start_shift, stop_shift]
  omega

@[simp] theorem Span.contains_shift (s : Span) (offset : Nat) :
    (s.shift k).Contains (offset + k) ↔ s.Contains offset := by
  simp [Contains]

@[simp] theorem Pruning.skips_shift (p : Pruning) (s : Span) (offset : Nat) :
    p.skips (s.shift k) (offset + k) = p.skips s offset := by
  cases p with
  | startsAfter => simp [skips]
  | startsAtOrAfter => simp [skips]
  | disjoint => simp [skips]

/-! ### Nodes -/

section Node

variable (n : Node)

@[simp] theorem Node.kind_shift : (n.shift k).kind = n.kind.shift k := by
  cases n
  rfl

@[simp] theorem Node.span_shift : (n.shift k).span = n.span.shift k := by
  cases n
  rfl

@[simp] theorem Node.rest_shift : (n.shift k).rest = n.rest.map (Node.shift k) := by
  cases n
  exact shiftForest_eq_map k _

end Node

section Kind

variable (kind : Kind Node)

@[simp] theorem Kind.label_shift : (kind.shift k).label = kind.label := by
  cases kind with
  | methodCall receiver operator member arguments => cases operator <;> rfl
  | propertyAccess receiver operator member => cases operator <;> rfl
  | _ => rfl

@[simp] theorem Kind.category_shift : (kind.shift k).category = kind.category := by
  cases kind <;> rfl

@[simp] theorem Kind.isScopeDefining_shift :
    (kind.shift k).isScopeDefining = kind.isScopeDefining := by
  cases kind <;> rfl

@[simp] theorem Kind.isCall_shift : (kind.shift k).isCall = kind.isCall := by
  cases kind <;> rfl

end Kind

section Member

variable (member : Member Node)

@[simp] theorem Member.nodes_shift : (member.shift k).nodes = member.nodes.map (Node.shift k) := by
  cases member <;> rfl

@[simp] theorem Member.identifier?_shift : (member.shift k).identifier? = member.identifier? := by
  cases member <;> rfl

@[simp] theorem Member.text_shift : (member.shift k).text = member.text := by
  cases member with
  | named name span => rfl
  | expression text node => rfl
  | «variable» node =>
    obtain ⟨kind, span, rest⟩ := node
    cases kind with
    | methodCall receiver operator member arguments => cases operator <;> rfl
    | propertyAccess receiver operator member => cases operator <;> rfl
    | _ => rfl

end Member

@[simp] theorem Kind.nodes_shift (kind : Kind Node) :
    (kind.shift k).nodes = kind.nodes.map (Node.shift k) := by
  cases kind <;> simp [Kind.shift, Kind.nodes, shiftForest_eq_map]

@[simp] theorem Node.children_shift (n : Node) :
    (n.shift k).children = n.children.map (Node.shift k) := by
  simp [children]

@[simp] theorem Node.label_shift (n : Node) : (n.shift k).label = n.label := by
  simp [label]

end CaretContext
