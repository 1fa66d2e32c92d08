import CaretContext.Proofs.Occurrence

/-!
# The shape of the tree

Every node plays a part for the one above it, such as an argument, a clause or a class member. For each
kind a table says which parts its children play, in which order, and how many of them there may be. Where
a node can occur is read off the table.
-/

namespace CaretContext

/-! ### Parts -/

/-- The part that a node plays for the one above it. -/
inductive Part where
  | expression
  | statement
  | member
  | argument
  | parameter
  | matchArm
  | elseIfClause
  | elseClause
  | catchClause
  | finallyClause
  | caseClause
deriving DecidableEq, Repr

def PlainStatement.part : PlainStatement → Part
  | property => .member
  | classConstant => .member
  | traitUse => .member
  | enumCase => .member
  | elseIfClause => .elseIfClause
  | elseClause => .elseClause
  | catchClause => .catchClause
  | finallyClause => .finallyClause
  | caseClause => .caseClause
  | _ => .statement

def Glue.part : Glue → Part
  | argument => .argument
  | parameter => .parameter
  | matchArm => .matchArm

/-- The part of a node by its kind. Classes and functions without a name are expressions. -/
def Kind.part {ν : Type} : Kind ν → Part
  | .classLike .anonymousClass => .expression
  | .classLike _ => .statement
  | .functionLike .functionDeclaration => .statement
  | .functionLike .methodDeclaration => .member
  | .functionLike _ => .expression
  | .controlFlow _ => .statement
  | .statement form => form.part
  | .glue form => form.part
  | _ => .expression

/-! ### Stretches of children -/

/-- How many nodes in a row may play the same part. -/
inductive Count where
  | one
  | optional
  | many
  | several
deriving DecidableEq, Repr

def Count.Allows : Count → Nat → Prop
  | one, n => n = 1
  | optional, n => n ≤ 1
  | many, _ => True
  | several, n => 0 < n

abbrev Stretch := Part × Count

/-- Whether the nodes make up the stretches, one after the other. -/
inductive Composes (plays : Part → Node → Prop) : List Stretch → List Node → Prop
  | nil : Composes plays [] []
  | cons {part : Part} {count : Count} {stretches : List Stretch} {ns ms : List Node}
      (part_of : ∀ n ∈ ns, plays part n) (allows : count.Allows ns.length)
      (rest : Composes plays stretches ms) : Composes plays ((part, count) :: stretches) (ns ++ ms)

namespace Composes

variable {plays plays' : Part → Node → Prop} {part : Part} {stretches : List Stretch} {n : Node}
  {ns ms : List Node}

theorem one (h : plays part n) (hrest : Composes plays stretches ns) :
    Composes plays ((part, .one) :: stretches) (n :: ns) :=
  have hone : ∀ m ∈ [n], plays part m := by simpa using h
  .cons hone rfl hrest

theorem many (h : ∀ n ∈ ns, plays part n) (hrest : Composes plays stretches ms) :
    Composes plays ((part, .many) :: stretches) (ns ++ ms) :=
  .cons h trivial hrest

theorem optional (h : ∀ n ∈ ns, plays part n) (hlength : ns.length ≤ 1)
    (hrest : Composes plays stretches ms) : Composes plays ((part, .optional) :: stretches) (ns ++ ms) :=
  .cons h hlength hrest

theorem last {count : Count} (h : ∀ n ∈ ns, plays part n) (hcount : count.Allows ns.length) :
    Composes plays [(part, count)] ns := by
  simpa using Composes.cons h hcount .nil

theorem imp (h : Composes plays stretches ns) (himp : ∀ n ∈ ns, ∀ part, plays part n → plays' part n) :
    Composes plays' stretches ns := by
  induction h with
  | nil => exact .nil
  | cons part_of allows _ ih =>
    refine .cons (fun n hn => himp n (by simp [hn]) _ (part_of n hn)) allows (ih fun n hn => ?_)
    exact himp n (by simp [hn])

/-- One of the nodes belongs to one of the stretches, and those before and behind it are apart. -/
theorem split {before after : List Node} (h : Composes plays stretches (before ++ n :: after)) :
    ∃ front part count back older pre post later, stretches = front ++ (part, count) :: back ∧
      before = older ++ pre ∧ after = post ++ later ∧ Composes plays front older ∧
      (∀ m ∈ pre ++ n :: post, plays part m) ∧ count.Allows (pre ++ n :: post).length ∧
      Composes plays back later := by
  generalize hns : before ++ n :: after = ns at h
  induction h generalizing before with
  | nil => simp at hns
  | @cons part count stretches as bs part_of allows rest ih =>
    -- The node is in the first stretch or behind it.
    have hcases : (∃ middle, as = before ++ n :: middle ∧ after = middle ++ bs) ∨
        ∃ middle, before = as ++ middle ∧ middle ++ n :: after = bs := by
      rcases List.append_eq_append_iff.1 hns with ⟨middle, has, hbs⟩ | ⟨middle, hbefore, hbs⟩
      · cases middle with
        | nil => exact .inr ⟨[], by simpa using has.symm, hbs⟩
        | cons m middle =>
          obtain ⟨rfl, rfl⟩ := List.cons.inj hbs
          exact .inl ⟨middle, has, rfl⟩
      · exact .inr ⟨middle, hbefore, hbs.symm⟩
    rcases hcases with ⟨middle, rfl, rfl⟩ | ⟨middle, rfl, hbs⟩
    · exact ⟨[], part, count, stretches, [], before, middle, bs, rfl, rfl, rfl, .nil, part_of, allows, rest⟩
    · obtain ⟨front, part', count', back, older, pre, post, later, rfl, rfl, rfl, hfront, hsame, hcount,
        hback⟩ := ih hbs
      exact ⟨(part, count) :: front, part', count', back, as ++ older, pre, post, later, rfl, by simp, rfl,
        .cons part_of allows hfront, hsame, hcount, hback⟩

theorem exists_stretch (h : Composes plays stretches ns) (hn : n ∈ ns) :
    ∃ stretch ∈ stretches, plays stretch.1 n := by
  obtain ⟨before, after, rfl⟩ := List.append_of_mem hn
  obtain ⟨front, part, count, back, older, pre, post, later, rfl, -, -, -, hsame, -⟩ := h.split
  exact ⟨(part, count), by simp, hsame n (by simp)⟩

end Composes

/-! ### The table -/

def ControlFlow.stretches : ControlFlow → List Stretch
  | ifElse => [(.expression, .one), (.statement, .many), (.elseIfClause, .many), (.elseClause, .optional)]
  | tryCatch => [(.statement, .many), (.catchClause, .many), (.finallyClause, .optional)]
  | whileLoop => [(.expression, .one), (.statement, .many)]
  | doWhileLoop => [(.statement, .many), (.expression, .one)]
  | forLoop => [(.expression, .many), (.statement, .many)]
  | foreachLoop => [(.expression, .many), (.statement, .many)]
  | switchCase => [(.expression, .one), (.caseClause, .many)]

def PlainStatement.stretches : PlainStatement → List Stretch
  | namespaceScope => [(.statement, .many)]
  | declareDirective => [(.expression, .many), (.statement, .many)]
  | elseIfClause => [(.expression, .one), (.statement, .many)]
  | elseClause => [(.statement, .many)]
  | catchClause => [(.statement, .many)]
  | finallyClause => [(.statement, .many)]
  | caseClause => [(.expression, .optional), (.statement, .many)]
  | _ => [(.expression, .many)]

def PlainExpression.stretches : PlainExpression → List Stretch
  | matchArms => [(.expression, .one), (.matchArm, .many)]
  | instantiation => [(.expression, .one), (.argument, .many)]
  | exit => [(.argument, .many)]
  | _ => [(.expression, .many)]

def Glue.stretches : Glue → List Stretch
  | argument => [(.expression, .optional)]
  | parameter => [(.expression, .optional)]
  | matchArm => [(.expression, .several)]

/-- What the children of a node are, apart from those in its payload. -/
def Kind.stretches {ν : Type} : Kind ν → List Stretch
  | .classLike .anonymousClass => [(.argument, .many), (.member, .many)]
  | .classLike _ => [(.member, .many)]
  | .functionLike .arrowFunction => [(.parameter, .many), (.expression, .one)]
  | .functionLike _ => [(.parameter, .many), (.statement, .many)]
  | .controlFlow form => form.stretches
  | .statement form => form.stretches
  | .expression form => form.stretches
  | .glue form => form.stretches
  | _ => []

def Kind.Holds (plays : Part → Node → Prop) : Kind Node → Prop
  | .functionCall callee arguments => plays .expression callee ∧ ∀ a ∈ arguments, plays .argument a
  | .methodCall receiver _ member arguments =>
    plays .expression receiver ∧ (∀ m ∈ member.nodes, plays .expression m) ∧
      ∀ a ∈ arguments, plays .argument a
  | .propertyAccess receiver _ member =>
    plays .expression receiver ∧ ∀ m ∈ member.nodes, plays .expression m
  | .staticPropertyAccess owner _ => plays .expression owner
  | _ => True

/-- The parts that occur among the children of a node. -/
def Kind.parts : Kind Node → List Part
  | .functionCall .. => [.expression, .argument]
  | .methodCall .. => [.expression, .argument]
  | .propertyAccess .. => [.expression]
  | .staticPropertyAccess .. => [.expression]
  | kind => kind.stretches.map Prod.fst

abbrev Plays (part : Part) (n : Node) : Prop := n.kind.part = part

/-- Whether a node is made up as the table says. -/
structure Node.IsShaped (n : Node) : Prop where
  payload : n.kind.Holds Plays
  rest : Composes Plays n.kind.stretches n.rest

/-! ### What the table rules out -/

section Positions

variable {part : Part} {count : Count} {stretches : List Stretch} {c : Node} {before after : List Node}

private theorem Composes.leading (h : Composes Plays ((part, count) :: stretches) (before ++ c :: after))
    (honly : part ∉ stretches.map Prod.fst) (hc : c.kind.part = part) :
    ∀ b ∈ before, b.kind.part = part := by
  obtain ⟨front, part', count', back, older, pre, post, later, hstretches, rfl, -, hfront, hsame, -⟩ := h.split
  obtain rfl : part = part' := hc.symm.trans (hsame c (by simp))
  cases front with
  | nil =>
    cases hfront
    exact fun b hb => hsame b (by simp_all)
  | cons stretch front =>
    obtain ⟨-, rfl⟩ := List.cons.inj hstretches
    simp at honly

private theorem Composes.eq_nil_of_last
    (h : Composes Plays (stretches ++ [(part, .optional)]) (before ++ c :: after))
    (honly : part ∉ stretches.map Prod.fst) (hc : c.kind.part = part) : after = [] := by
  obtain ⟨front, part', count', back, older, pre, post, later, hstretches, -, rfl, -, hsame, hcount, hback⟩ :=
    h.split
  obtain rfl : part = part' := hc.symm.trans (hsame c (by simp))
  rcases List.eq_nil_or_concat back with rfl | ⟨back, stretch, rfl⟩
  · cases hback
    obtain ⟨-, hlast⟩ := List.append_inj' hstretches rfl
    cases hlast
    have hlength : post.length = 0 := by
      simp only [Count.Allows, List.length_append, List.length_cons] at hcount
      omega
    simpa using hlength
  · rw [List.concat_eq_append, ← List.cons_append, ← List.append_assoc] at hstretches
    obtain ⟨rfl, -⟩ := List.append_inj' hstretches rfl
    simp at honly

end Positions

theorem Kind.Holds.exists_part {plays : Part → Node → Prop} {kind : Kind Node} {m : Node}
    (h : kind.Holds plays) (hm : m ∈ kind.nodes) : ∃ part ∈ kind.parts, plays part m := by
  cases kind with
  | functionCall callee arguments =>
    obtain ⟨hcallee, harguments⟩ := h
    rcases List.mem_cons.1 hm with rfl | hm
    · exact ⟨.expression, by simp [Kind.parts], hcallee⟩
    · exact ⟨.argument, by simp [Kind.parts], harguments m hm⟩
  | methodCall receiver operator member arguments =>
    obtain ⟨hreceiver, hmember, harguments⟩ := h
    simp only [Kind.nodes, List.mem_cons, List.mem_append] at hm
    rcases hm with rfl | hm | hm
    · exact ⟨.expression, by simp [Kind.parts], hreceiver⟩
    · exact ⟨.expression, by simp [Kind.parts], hmember m hm⟩
    · exact ⟨.argument, by simp [Kind.parts], harguments m hm⟩
  | propertyAccess receiver operator member =>
    obtain ⟨hreceiver, hmember⟩ := h
    rcases List.mem_cons.1 hm with rfl | hm
    · exact ⟨.expression, by simp [Kind.parts], hreceiver⟩
    · exact ⟨.expression, by simp [Kind.parts], hmember m hm⟩
  | staticPropertyAccess owner property =>
    obtain rfl := List.mem_singleton.1 hm
    exact ⟨.expression, by simp [Kind.parts], h⟩
  | _ => simp [Kind.nodes] at hm

theorem Kind.Holds.imp {plays plays' : Part → Node → Prop} {kind : Kind Node} (h : kind.Holds plays)
    (himp : ∀ part n, plays part n → plays' part n) : kind.Holds plays' := by
  cases kind with
  | functionCall callee arguments => exact ⟨himp _ _ h.1, fun a ha => himp _ _ (h.2 a ha)⟩
  | methodCall receiver operator member arguments =>
    exact ⟨himp _ _ h.1, fun m hm => himp _ _ (h.2.1 m hm), fun a ha => himp _ _ (h.2.2 a ha)⟩
  | propertyAccess receiver operator member => exact ⟨himp _ _ h.1, fun m hm => himp _ _ (h.2 m hm)⟩
  | staticPropertyAccess owner property => exact himp _ _ h
  | _ => trivial

namespace Node.IsShaped

variable {n c : Node} {before after : List Node}

private theorem part_mem_parts (h : n.IsShaped) (hc : c ∈ n.children) : c.kind.part ∈ n.kind.parts := by
  rw [Node.children, List.mem_append] at hc
  rcases hc with hc | hc
  · obtain ⟨part, hpart, hplays⟩ := h.payload.exists_part hc
    exact hplays ▸ hpart
  · obtain ⟨stretch, hstretch, hpart⟩ := h.rest.exists_stretch hc
    have hmem : c.kind.part ∈ n.kind.stretches.map Prod.fst := by
      rw [List.mem_map]
      exact ⟨stretch, hstretch, hpart.symm⟩
    cases hkind : n.kind <;> rw [hkind] at hmem <;> first | exact hmem | simp [Kind.stretches] at hmem

end Node.IsShaped

/-! ### Where nodes occur -/

def Kind.arguments {ν : Type} : Kind ν → List ν
  | .functionCall _ arguments => arguments
  | .methodCall _ _ _ arguments => arguments
  | _ => []

/-- Calls, accesses, variables and names, which have no children but those in their payload. -/
def Kind.isBare {ν : Type} : Kind ν → Bool
  | .functionCall .. => true
  | .methodCall .. => true
  | .propertyAccess .. => true
  | .staticPropertyAccess .. => true
  | .variable _ => true
  | .identifier _ => true
  | _ => false

/-- Whether statements stand directly below the node: namespaces and directives, clauses, control flow,
classes, and functions with a body of statements. -/
def Kind.holdsStatements {ν : Type} : Kind ν → Bool
  | .statement .namespaceScope => true
  | .statement .declareDirective => true
  | .statement .elseIfClause => true
  | .statement .elseClause => true
  | .statement .catchClause => true
  | .statement .finallyClause => true
  | .statement .caseClause => true
  | .controlFlow _ => true
  | .classLike _ => true
  | .functionLike form => form != .arrowFunction
  | _ => false

/-- What stands below a node, and where. -/
structure Node.ObeysGrammar (n : Node) : Prop where
  bare : n.kind.isBare = true → n.rest = []
  /-- The arguments of a call stand behind the other nodes of its payload. -/
  call : n.kind.isCall = true → ∃ front, n.children = front ++ n.kind.arguments ∧
    (∀ m ∈ front, m.kind ≠ .glue .argument) ∧ ∀ a ∈ n.kind.arguments, a.kind = .glue .argument
  argument : n.kind = .glue .argument → n.children.length ≤ 1
  parameter : n.kind = .glue .parameter → n.children.length ≤ 1
  matchArm : n.kind = .glue .matchArm → 1 ≤ n.children.length
  arguments : ∀ c ∈ n.children, c.kind = .glue .argument → n.kind.isCall = true ∨
    n.kind = .expression .instantiation ∨ n.kind = .expression .exit ∨ n.kind = .classLike .anonymousClass
  /-- The parameters of a function come first. -/
  parameters : ∀ before c after, n.children = before ++ c :: after → c.kind = .glue .parameter →
    (∃ form, n.kind = .functionLike form) ∧ ∀ b ∈ before, b.kind = .glue .parameter
  matchArms : ∀ c ∈ n.children, c.kind = .glue .matchArm → n.kind = .expression .matchArms
  elseIfClauses : ∀ c ∈ n.children, c.kind = .statement .elseIfClause → n.kind = .controlFlow .ifElse
  /-- There is one clause without a condition at most, since it comes last. -/
  elseClause : ∀ before c after, n.children = before ++ c :: after → c.kind = .statement .elseClause →
    n.kind = .controlFlow .ifElse ∧ after = []
  catchClauses : ∀ c ∈ n.children, c.kind = .statement .catchClause → n.kind = .controlFlow .tryCatch
  finallyClause : ∀ before c after, n.children = before ++ c :: after → c.kind = .statement .finallyClause →
    n.kind = .controlFlow .tryCatch ∧ after = []
  caseClauses : ∀ c ∈ n.children, c.kind = .statement .caseClause → n.kind = .controlFlow .switchCase
  members : ∀ c ∈ n.children, c.kind.part = .member → ∃ form, n.kind = .classLike form
  /-- The children of a class are members, behind the arguments if it has no name. -/
  classBody : ∀ form, n.kind = .classLike form → ∀ before c after, n.children = before ++ c :: after →
    c.kind.part = .member ∨
      (form = .anonymousClass ∧ c.kind = .glue .argument ∧ ∀ b ∈ before, b.kind = .glue .argument)
  statements : ∀ c ∈ n.children, c.kind.category = .statement → n.kind.holdsStatements = true

def Part.IsPlayedFor : Part → Kind Node → Prop
  | expression, _ => True
  | statement, kind => kind.holdsStatements = true
  | member, kind => ∃ form, kind = .classLike form
  | argument, kind => kind.isCall = true ∨ kind = .expression .instantiation ∨ kind = .expression .exit ∨
      kind = .classLike .anonymousClass
  | parameter, kind => ∃ form, kind = .functionLike form
  | matchArm, kind => kind = .expression .matchArms
  | elseIfClause, kind => kind = .controlFlow .ifElse
  | elseClause, kind => kind = .controlFlow .ifElse
  | catchClause, kind => kind = .controlFlow .tryCatch
  | finallyClause, kind => kind = .controlFlow .tryCatch
  | caseClause, kind => kind = .controlFlow .switchCase

private theorem Part.isPlayedFor_of_mem_parts {part : Part} {kind : Kind Node} (h : part ∈ kind.parts) :
    part.IsPlayedFor kind := by
  rcases kind with form | form | form | form | form | form | _ | _ | _ | _ | _ | _ <;> try cases form
  all_goals
    simp only [Kind.parts, Kind.stretches, ControlFlow.stretches, PlainStatement.stretches,
      PlainExpression.stretches, Glue.stretches, List.map_cons, List.map_nil, List.mem_cons,
      List.not_mem_nil, or_false] at h
  all_goals
    rcases h with rfl | rfl | rfl | rfl <;> simp [IsPlayedFor, Kind.holdsStatements, Kind.isCall]

theorem Kind.eq_glue_of_part {kind : Kind Node} {form : Glue} (h : kind.part = form.part) :
    kind = .glue form := by
  rcases kind with f | f | f | f | f | f | _ | _ | _ | _ | _ | _ <;> cases form <;> try cases f
  all_goals simp_all [Kind.part, PlainStatement.part, Glue.part]

private theorem Kind.part_of_category {kind : Kind Node} (h : kind.category = .statement) :
    kind.part ∉ [.expression, .argument, .parameter, .matchArm] := by
  rcases kind with f | f | f | f | f | f | _ | _ | _ | _ | _ | _ <;> try cases f
  all_goals simp_all [Kind.part, PlainStatement.part, Kind.category, ClassLike.category, FunctionLike.category]

private theorem Kind.holdsStatements_of_category {kind parent : Kind Node} (h : kind.category = .statement)
    (hpart : kind.part.IsPlayedFor parent) : parent.holdsStatements = true := by
  have hnot := Kind.part_of_category h
  cases hkind : kind.part <;> rw [hkind] at hnot hpart
  case statement => exact hpart
  case member =>
    obtain ⟨form, rfl⟩ := hpart
    rfl
  case elseIfClause | elseClause | catchClause | finallyClause | caseClause =>
    cases hpart
    rfl
  all_goals simp at hnot

section Shaped

variable {n c : Node} {before after : List Node}

private theorem Composes.eq_nil {plays : Part → Node → Prop} {ns : List Node} (h : Composes plays [] ns) :
    ns = [] := by
  cases h
  rfl

private theorem Composes.allows {plays : Part → Node → Prop} {part : Part} {count : Count} {ns : List Node}
    (h : Composes plays [(part, count)] ns) : count.Allows ns.length := by
  cases h with
  | cons part_of allows rest =>
    rw [rest.eq_nil, List.append_nil]
    exact allows

private theorem Node.IsShaped.isPlayedFor {kind : Kind Node} (h : n.IsShaped) (hc : c ∈ n.children)
    (hkind : c.kind = kind) : kind.part.IsPlayedFor n.kind :=
  hkind ▸ Part.isPlayedFor_of_mem_parts (h.part_mem_parts hc)

private theorem Node.IsShaped.composes {kind : Kind Node} {ns : List Node} (h : n.IsShaped)
    (hkind : n.kind = kind)
    (hnodes : kind.nodes = []) (hns : n.children = ns) : Composes Plays kind.stretches ns := by
  rw [← hns, Node.children, hkind, hnodes, ← hkind]
  exact h.rest

private theorem Node.IsShaped.call (h : n.IsShaped) (hcall : n.kind.isCall = true) :
    ∃ front, n.children = front ++ n.kind.arguments ∧ (∀ m ∈ front, m.kind ≠ .glue .argument) ∧
      ∀ a ∈ n.kind.arguments, a.kind = .glue .argument := by
  have hother : ∀ m : Node, m.kind.part = .expression → m.kind ≠ .glue .argument := by
    intro m hm hkind
    rw [hkind] at hm
    cases hm
  have hpayload := h.payload
  have hrest := h.rest
  cases hkind : n.kind with
  | functionCall callee arguments =>
    rw [hkind] at hpayload hrest
    obtain ⟨hcallee, harguments⟩ := hpayload
    refine ⟨[callee], ?_, by simpa using hother callee hcallee, fun a ha => ?_⟩
    · simp [Node.children, hkind, Kind.nodes, Kind.arguments, hrest.eq_nil]
    · exact Kind.eq_glue_of_part (harguments a ha)
  | methodCall receiver operator member arguments =>
    rw [hkind] at hpayload hrest
    obtain ⟨hreceiver, hmember, harguments⟩ := hpayload
    refine ⟨receiver :: member.nodes, ?_, ?_, fun a ha => ?_⟩
    · simp [Node.children, hkind, Kind.nodes, Kind.arguments, hrest.eq_nil]
    · exact List.forall_mem_cons.2 ⟨hother receiver hreceiver, fun m hm => hother m (hmember m hm)⟩
    · exact Kind.eq_glue_of_part (harguments a ha)
  | _ => simp [hkind, Kind.isCall] at hcall

private theorem Node.IsShaped.classBody (h : n.IsShaped) {form : ClassLike} (hkind : n.kind = .classLike form)
    (hchildren : n.children = before ++ c :: after) :
    c.kind.part = .member ∨
      (form = .anonymousClass ∧ c.kind = .glue .argument ∧ ∀ b ∈ before, b.kind = .glue .argument) := by
  have hcomposes := h.composes hkind rfl hchildren
  obtain ⟨stretch, hstretch, hpart⟩ := hcomposes.exists_stretch (n := c) (by simp)
  cases form with
  | anonymousClass =>
    simp only [Kind.stretches, List.mem_cons, List.not_mem_nil, or_false] at hstretch
    rcases hstretch with rfl | rfl
    · refine .inr ⟨rfl, Kind.eq_glue_of_part hpart, fun b hb => Kind.eq_glue_of_part ?_⟩
      exact hcomposes.leading (by decide) hpart b hb
    · exact .inl hpart
  | _ =>
    obtain rfl := List.mem_singleton.1 hstretch
    exact .inl hpart

theorem Node.IsShaped.obeysGrammar (h : n.IsShaped) : n.ObeysGrammar where
  bare hbare := by
    have hrest := h.rest
    cases hkind : n.kind <;> rw [hkind] at hbare hrest <;>
      first | exact hrest.eq_nil | simp [Kind.isBare] at hbare
  call := h.call
  argument hkind := (h.composes hkind rfl rfl).allows
  parameter hkind := (h.composes hkind rfl rfl).allows
  matchArm hkind := (h.composes hkind rfl rfl).allows
  arguments _ hc hkind := h.isPlayedFor hc hkind
  parameters before c after hchildren hkind := by
    obtain ⟨form, hform⟩ := h.isPlayedFor (by simp [hchildren]) hkind
    have hcomposes := h.composes hform rfl hchildren
    have hpart : c.kind.part = .parameter := by rw [hkind]; rfl
    refine ⟨⟨form, hform⟩, fun b hb => Kind.eq_glue_of_part ?_⟩
    cases form <;> exact hcomposes.leading (by decide) hpart b hb
  matchArms _ hc hkind := h.isPlayedFor hc hkind
  elseIfClauses _ hc hkind := h.isPlayedFor hc hkind
  elseClause before c after hchildren hkind := by
    have hform : n.kind = .controlFlow .ifElse := h.isPlayedFor (by simp [hchildren]) hkind
    have hpart : c.kind.part = .elseClause := by rw [hkind]; rfl
    have hcomposes : Composes Plays
        ([(.expression, .one), (.statement, .many), (.elseIfClause, .many)] ++ [(.elseClause, .optional)])
        (before ++ c :: after) := h.composes hform rfl hchildren
    exact ⟨hform, hcomposes.eq_nil_of_last (by decide) hpart⟩
  catchClauses _ hc hkind := h.isPlayedFor hc hkind
  finallyClause before c after hchildren hkind := by
    have hform : n.kind = .controlFlow .tryCatch := h.isPlayedFor (by simp [hchildren]) hkind
    have hpart : c.kind.part = .finallyClause := by rw [hkind]; rfl
    have hcomposes : Composes Plays
        ([(.statement, .many), (.catchClause, .many)] ++ [(.finallyClause, .optional)])
        (before ++ c :: after) := h.composes hform rfl hchildren
    exact ⟨hform, hcomposes.eq_nil_of_last (by decide) hpart⟩
  caseClauses _ hc hkind := h.isPlayedFor hc hkind
  members c hc hpart := by
    have hplays := h.isPlayedFor hc rfl
    rw [hpart] at hplays
    exact hplays
  classBody _ hkind _ _ _ hchildren := h.classBody hkind hchildren
  statements _ hc hkind := Kind.holdsStatements_of_category hkind (h.isPlayedFor hc rfl)

end Shaped

end CaretContext
