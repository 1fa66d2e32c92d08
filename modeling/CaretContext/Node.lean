import CaretContext.Span

/-!
# The query tree

What the resolvers see of a program: constructs with a kind, a span and children. Calls and member
accesses carry their parts as a payload; those come first among the children. Every kind has a
label, a category, and is scope-defining or not.
-/

namespace CaretContext

/-- How a member is reached: `->`, `?->` or `::`. -/
inductive AccessOperator where
  | arrow
  | nullSafe
  | static
deriving DecidableEq, Repr, Inhabited

def AccessOperator.text : AccessOperator → String
  | arrow => "->"
  | nullSafe => "?->"
  | static => "::"

inductive ClassLike where
  | classDeclaration
  | interfaceDeclaration
  | traitDeclaration
  | enumDeclaration
  | anonymousClass
deriving DecidableEq, Repr

inductive FunctionLike where
  | functionDeclaration
  | methodDeclaration
  | closure
  | arrowFunction
deriving DecidableEq, Repr

/-- Statements that open a nesting level. -/
inductive ControlFlow where
  | ifElse
  | tryCatch
  | whileLoop
  | doWhileLoop
  | forLoop
  | foreachLoop
  | switchCase
deriving DecidableEq, Repr

/-- Statements, class members and clauses that open no level of their own. -/
inductive PlainStatement where
  | namespaceScope
  | useImport
  | expression
  | returnValue
  | echo
  | globalVariables
  | staticVariables
  | unset
  | declareDirective
  | breakLoop
  | continueLoop
  | constant
  | property
  | classConstant
  | traitUse
  | enumCase
  | elseIfClause
  | elseClause
  | catchClause
  | finallyClause
  | caseClause
  | other
deriving DecidableEq, Repr

/-- Expressions without a payload of their own. -/
inductive PlainExpression where
  | assignment
  | binary
  | unaryPrefix
  | unaryPostfix
  | parenthesized
  | conditional
  | array
  | list
  | arrayAccess
  | matchArms
  | instantiation
  | literal
  | yieldValue
  | throwException
  | clone
  | pipe
  | classConstantAccess
  | selfReference
  | staticReference
  | parentReference
  | isset
  | empty
  | eval
  | includeFile
  | print
  | exit
  | interpolatedString
  | shellExecute
  | other
deriving DecidableEq, Repr

/-- Structure that is walked through and never reported. -/
inductive Glue where
  | argument
  | parameter
  | matchArm
deriving DecidableEq, Repr

inductive Category where
  | statement
  | expression
  | glue
deriving DecidableEq, Repr

/-- The member named after an access operator: a plain name, a variable, or any other expression
together with the text it is written as. -/
inductive Member (ν : Type) where
  | named (name : String) (span : Span)
  | variable (node : ν)
  | expression (text : String) (node : ν)
deriving Repr

/-- What a node is, over the type of the nodes it holds. -/
inductive Kind (ν : Type) where
  | classLike (form : ClassLike)
  | functionLike (form : FunctionLike)
  | controlFlow (form : ControlFlow)
  | statement (form : PlainStatement)
  | expression (form : PlainExpression)
  | glue (form : Glue)
  | functionCall (callee : ν) (arguments : List ν)
  | methodCall (receiver : ν) (operator : AccessOperator) (member : Member ν)
      (arguments : List ν)
  | propertyAccess (receiver : ν) (operator : AccessOperator) (member : Member ν)
  | staticPropertyAccess (owner : ν) (property : String)
  | variable (name : String)
  | identifier (name : String)
deriving Repr

/-- A construct of the program. -/
structure Node where
  kind : Kind Node
  span : Span
  rest : List Node

instance : Inhabited Node := ⟨⟨.expression .other, default, []⟩⟩

namespace ClassLike

def label : ClassLike → String
  | classDeclaration => "ClassDeclaration"
  | interfaceDeclaration => "InterfaceDeclaration"
  | traitDeclaration => "TraitDeclaration"
  | enumDeclaration => "EnumDeclaration"
  | anonymousClass => "AnonymousClass"

def category : ClassLike → Category
  | anonymousClass => .expression
  | _ => .statement

end ClassLike

namespace FunctionLike

def label : FunctionLike → String
  | functionDeclaration => "FunctionDeclaration"
  | methodDeclaration => "MethodDeclaration"
  | closure => "Closure"
  | arrowFunction => "ArrowFunction"

def category : FunctionLike → Category
  | closure => .expression
  | arrowFunction => .expression
  | _ => .statement

end FunctionLike

def ControlFlow.label : ControlFlow → String
  | ifElse => "If"
  | tryCatch => "Try"
  | whileLoop => "While"
  | doWhileLoop => "DoWhile"
  | forLoop => "For"
  | foreachLoop => "Foreach"
  | switchCase => "Switch"

def PlainStatement.label : PlainStatement → String
  | namespaceScope => "Namespace"
  | useImport => "Use"
  | expression => "ExpressionStatement"
  | returnValue => "Return"
  | echo => "Echo"
  | globalVariables => "Global"
  | staticVariables => "Static"
  | unset => "Unset"
  | declareDirective => "Declare"
  | breakLoop => "Break"
  | continueLoop => "Continue"
  | constant => "Constant"
  | property => "Property"
  | classConstant => "ClassConstant"
  | traitUse => "TraitUse"
  | enumCase => "EnumCase"
  | elseIfClause => "ElseIf"
  | elseClause => "Else"
  | catchClause => "Catch"
  | finallyClause => "Finally"
  | caseClause => "Case"
  | other => "Statement"

def PlainExpression.label : PlainExpression → String
  | assignment => "Assignment"
  | binary => "Binary"
  | unaryPrefix => "UnaryPrefix"
  | unaryPostfix => "UnaryPostfix"
  | parenthesized => "Parenthesized"
  | conditional => "Conditional"
  | array => "Array"
  | list => "List"
  | arrayAccess => "ArrayAccess"
  | matchArms => "Match"
  | instantiation => "Instantiation"
  | literal => "Literal"
  | yieldValue => "Yield"
  | throwException => "Throw"
  | clone => "Clone"
  | pipe => "Pipe"
  | classConstantAccess => "ClassConstantAccess"
  | selfReference => "Self"
  | staticReference => "Static"
  | parentReference => "Parent"
  | isset => "Isset"
  | empty => "Empty"
  | eval => "Eval"
  | includeFile => "Include"
  | print => "Print"
  | exit => "Exit"
  | interpolatedString => "InterpolatedString"
  | shellExecute => "ShellExec"
  | other => "Expression"

def Glue.label : Glue → String
  | argument => "Argument"
  | parameter => "Parameter"
  | matchArm => "MatchArm"

namespace Kind

variable {ν : Type}

def label : Kind ν → String
  | .classLike form => form.label
  | .functionLike form => form.label
  | .controlFlow form => form.label
  | .statement form => form.label
  | .expression form => form.label
  | .glue form => form.label
  | .functionCall .. => "FunctionCall"
  | .methodCall _ .arrow .. => "MethodCall"
  | .methodCall _ .nullSafe .. => "NullSafeMethodCall"
  | .methodCall _ .static .. => "StaticMethodCall"
  | .propertyAccess _ .nullSafe _ => "NullSafePropertyAccess"
  | .propertyAccess .. => "PropertyAccess"
  | .staticPropertyAccess .. => "StaticPropertyAccess"
  | .variable _ => "Variable"
  | .identifier _ => "Identifier"

def category : Kind ν → Category
  | .classLike form => form.category
  | .functionLike form => form.category
  | .controlFlow _ => .statement
  | .statement _ => .statement
  | .glue _ => .glue
  | .identifier _ => .glue
  | _ => .expression

/-- Class-likes, function-likes, control flow and every expression start a nesting level. -/
def isScopeDefining : Kind ν → Bool
  | .classLike _ => true
  | .functionLike _ => true
  | .controlFlow _ => true
  | .statement _ => false
  | .glue _ => false
  | .identifier _ => false
  | _ => true

def isCall : Kind ν → Bool
  | .functionCall .. => true
  | .methodCall .. => true
  | _ => false

end Kind

def Member.nodes {ν : Type} : Member ν → List ν
  | .named .. => []
  | .variable node => [node]
  | .expression _ node => [node]

def Kind.nodes {ν : Type} : Kind ν → List ν
  | .functionCall callee arguments => callee :: arguments
  | .methodCall receiver _ member arguments => receiver :: (member.nodes ++ arguments)
  | .propertyAccess receiver _ member => receiver :: member.nodes
  | .staticPropertyAccess owner _ => [owner]
  | _ => []

namespace Node

/-- All direct children: those of the payload, then the others. -/
def children (n : Node) : List Node := n.kind.nodes ++ n.rest

def label (n : Node) : String := n.kind.label

end Node

/-- The member as written in source. A variable member keeps its dollar sign. -/
def Member.text : Member Node → String
  | .named name _ => name
  | .variable node =>
    match node.kind with
    | .variable name => "$" ++ name
    | kind => kind.label
  | .expression text _ => text

/-- The plain name of a member. An absent name is no name. -/
def Member.identifier? {ν : Type} : Member ν → Option String
  | .named name _ => if name = "" then none else some name
  | _ => none

/-! ### Size

Children are smaller than their parent, which is what every recursion over the tree descends by. -/

/-- The size of a list of nodes, counting each node in full. -/
noncomputable def forestSize : List Node → Nat
  | [] => 0
  | n :: ns => sizeOf n + forestSize ns

@[simp] theorem forestSize_nil : forestSize [] = 0 := rfl

@[simp] theorem forestSize_cons (n : Node) (ns : List Node) :
    forestSize (n :: ns) = sizeOf n + forestSize ns := rfl

@[simp] theorem forestSize_append (ms ns : List Node) :
    forestSize (ms ++ ns) = forestSize ms + forestSize ns := by
  induction ms with
  | nil => exact (Nat.zero_add _).symm
  | cons m ms ih =>
    rw [List.cons_append, forestSize_cons, forestSize_cons, ih]
    exact (Nat.add_assoc _ _ _).symm

private theorem forestSize_lt_sizeOf (ns : List Node) : forestSize ns < sizeOf ns := by
  induction ns with
  | nil => decide
  | cons n ns ih =>
    rw [forestSize_cons, List.cons.sizeOf_spec]
    omega

private theorem Member.forestSize_nodes_lt (m : Member Node) : forestSize m.nodes < sizeOf m := by
  cases m with
  | named name span =>
    rw [Member.nodes, forestSize_nil, Member.named.sizeOf_spec]
    omega
  | «variable» node =>
    rw [Member.nodes, forestSize_cons, forestSize_nil, Member.variable.sizeOf_spec]
    omega
  | expression text node =>
    rw [Member.nodes, forestSize_cons, forestSize_nil, Member.expression.sizeOf_spec]
    omega

private theorem Kind.forestSize_nodes_lt (k : Kind Node) : forestSize k.nodes < sizeOf k := by
  cases k with
  | functionCall callee arguments =>
    have := forestSize_lt_sizeOf arguments
    rw [Kind.nodes, forestSize_cons, Kind.functionCall.sizeOf_spec]
    omega
  | methodCall receiver operator member arguments =>
    have := forestSize_lt_sizeOf arguments
    have := member.forestSize_nodes_lt
    rw [Kind.nodes, forestSize_cons, forestSize_append, Kind.methodCall.sizeOf_spec]
    omega
  | propertyAccess receiver operator member =>
    have := member.forestSize_nodes_lt
    rw [Kind.nodes, forestSize_cons, Kind.propertyAccess.sizeOf_spec]
    omega
  | staticPropertyAccess owner property =>
    rw [Kind.nodes, forestSize_cons, forestSize_nil, Kind.staticPropertyAccess.sizeOf_spec]
    omega
  | classLike form => exact Nat.add_pos_left Nat.one_pos _
  | functionLike form => exact Nat.add_pos_left Nat.one_pos _
  | controlFlow form => exact Nat.add_pos_left Nat.one_pos _
  | statement form => exact Nat.add_pos_left Nat.one_pos _
  | expression form => exact Nat.add_pos_left Nat.one_pos _
  | glue form => exact Nat.add_pos_left Nat.one_pos _
  | «variable» name => exact Nat.add_pos_left Nat.one_pos _
  | identifier name => exact Nat.add_pos_left Nat.one_pos _

theorem Node.forestSize_children_lt (n : Node) : forestSize n.children < sizeOf n := by
  cases n with
  | mk kind span rest =>
    have := kind.forestSize_nodes_lt
    have := forestSize_lt_sizeOf rest
    show forestSize (kind.nodes ++ rest) < sizeOf (Node.mk kind span rest)
    rw [forestSize_append, Node.mk.sizeOf_spec]
    omega

theorem Node.sizeOf_pos (n : Node) : 0 < sizeOf n :=
  Nat.zero_lt_of_lt n.forestSize_children_lt

theorem Node.sizeOf_lt_of_mem_children {c n : Node} (h : c ∈ n.children) :
    sizeOf c < sizeOf n := by
  refine Nat.lt_of_le_of_lt ?_ n.forestSize_children_lt
  generalize n.children = cs at h
  induction cs with
  | nil => exact absurd h List.not_mem_nil
  | cons d ds ih =>
    rw [forestSize_cons]
    rcases List.mem_cons.1 h with rfl | h
    · exact Nat.le_add_right _ _
    · exact Nat.le_trans (ih h) (Nat.le_add_left _ _)

end CaretContext
