import CaretContext.Proofs.Php.Growth

/-!
# Nodes of arguments, functions and classes
-/

namespace CaretContext.Php.Grammar

open TokenParser

variable {g : Grammar} {source : Source}

/-! ### Arguments -/

private theorem makes_argumentValue (hg : g.Produces) (form : ArgumentForm) (start : Nat) :
    Makes g.source (g.argumentValue form start) (Grown g.source .argument ·.node) := by
  refine (hg.expression .lowest).bind fun value hvalue => ?_
  refine (makes_close rfl ?_).bind fun _ hnode => makes_pure hnode
  exact .last (allGrown_singleton hvalue) (Nat.le_refl 1)

private theorem makes_placeholder (start : Nat) :
    Makes source (placeholder start) (Grown source .argument ·.node) := by
  refine Makes.after fun _ => (makes_close rfl ?_).bind fun _ hnode => makes_pure hnode
  exact .last allGrown_nil (Nat.zero_le 1)

theorem makes_argument (hg : g.Produces) (withHoles : Bool) :
    Makes g.source (g.argument withHoles) (Grown g.source .argument ·.node) := by
  refine Makes.after fun token => Makes.after fun named => makes_ite (fun _ => ?_) fun _ =>
    makes_ite (fun _ => ?_) fun _ => makes_ite (fun _ => makes_placeholder _) fun _ => ?_
  · refine Makes.after fun _ => Makes.after fun _ => Makes.after fun _ => ?_
    exact makes_ite (fun _ => makes_placeholder _) fun _ => makes_argumentValue hg _ _
  · refine Makes.after fun _ => makes_ite (fun _ => makes_placeholder _) fun _ => ?_
    exact Makes.after fun _ => makes_argumentValue hg _ _
  · refine (hg.expression .lowest).bind fun value hvalue => makes_pure ?_
    exact .plain rfl rfl (.last (allGrown_singleton hvalue) (Nat.le_refl 1))

theorem allGrown_arguments {arguments : List Argument} (h : ∀ a ∈ arguments, Grown source .argument a.node) :
    AllGrown source .argument (arguments.map (·.node)) := by
  simpa [AllGrown] using h

theorem makes_argumentList (hg : g.Produces) (withHoles : Bool) :
    Makes g.source (g.argumentList withHoles)
      fun arguments => AllGrown g.source .argument (arguments.map (·.node)) :=
  Makes.after fun _ => (makes_bracketed ")" (makes_argument hg withHoles)).imp fun _ => allGrown_arguments

theorem makes_optionalArguments (hg : g.Produces) :
    Makes g.source g.optionalArguments (AllGrown g.source .argument) := by
  refine Makes.after fun _ => makes_ite (fun _ => ?_) fun _ => makes_pure allGrown_nil
  exact (makes_argumentList hg false).bind fun _ harguments => makes_pure harguments

/-! ### Parameters -/

theorem makes_optionalValue (hg : g.Produces) :
    Makes g.source g.optionalValue fun value => AllGrown g.source .expression value ∧ value.length ≤ 1 := by
  refine Makes.after fun _ => makes_ite (fun _ => ?_) fun _ => makes_pure ⟨allGrown_nil, Nat.zero_le 1⟩
  exact (hg.expression .lowest).bind fun value hvalue =>
    makes_pure ⟨allGrown_singleton hvalue, Nat.le_refl 1⟩

private theorem makes_parameterHead (hg : g.Produces) :
    Makes g.source g.parameterHead (Grown g.source .parameter) := by
  refine Makes.after fun _ => Makes.after fun _ => Makes.after fun _ => Makes.after fun _ => ?_
  refine Makes.after fun _ => Makes.after fun _ => Makes.after fun _ => Makes.after fun _ => ?_
  exact (makes_optionalValue hg).bind fun value hvalue => makes_close rfl (.last hvalue.1 hvalue.2)

private theorem makes_parameter (hg : g.Produces) : Makes g.source g.parameter (Grown g.source .parameter) := by
  refine (makes_parameterHead hg).bind fun node hnode => Makes.after fun _ => ?_
  refine makes_ite (fun _ => ?_) fun _ => ?_
  · exact Makes.after fun _ => makes_pure hnode
  · exact makes_pure hnode

private theorem makes_parameterList (hg : g.Produces) :
    Makes g.source g.parameterList (AllGrown g.source .parameter) :=
  Makes.after fun _ => makes_bracketed ")" (makes_parameter hg)

/-! ### Blocks -/

/-- Groups of statements are gathered with the last one first. -/
theorem allGrown_flatten {part : Part} {groups : List (List Node)}
    (h : ∀ group ∈ groups, AllGrown source part group) : AllGrown source part groups.reverse.flatten := by
  intro n hn
  obtain ⟨group, hgroup, hmem⟩ := List.mem_flatten.1 hn
  exact h group (List.mem_reverse.1 hgroup) n hmem

private theorem makes_recoveredStatements (hg : g.Produces) (ends : Token → Bool) :
    Makes g.source (g.recoveredStatements ends) (AllGrown g.source .statement) := by
  refine makes_repeating (fun groups => ∀ group ∈ groups, AllGrown g.source .statement group) (by simp)
    fun groups hinv => Makes.after fun found => ?_
  cases found with
  | none => exact makes_pure (allGrown_flatten hinv)
  | some token =>
    refine makes_ite (fun _ => makes_pure (allGrown_flatten hinv)) fun _ => ?_
    refine (makes_forward (makes_recover hg.statement)).bind fun found hfound => ?_
    cases found with
    | none => exact makes_pure hinv
    | some ns => exact makes_pure (List.forall_mem_cons.2 ⟨hfound ns rfl, hinv⟩)

theorem makes_block (hg : g.Produces) : Makes g.source g.block (AllGrown g.source .statement) :=
  Makes.after fun _ => (makes_recoveredStatements hg _).bind fun _ hnodes =>
    Makes.after fun _ => makes_pure hnodes

/-! ### Functions -/

private theorem composes_function {form : FunctionLike} {parameters body : List Node}
    (hform : form ≠ .arrowFunction) (hparameters : AllGrown source .parameter parameters)
    (hbody : AllGrown source .statement body) :
    Composes (Grown source) (Kind.functionLike form : Kind Node).stretches (parameters ++ body) := by
  have hbodies : Composes (Grown source) [(.statement, .many)] body := .last hbody trivial
  cases form <;> first | exact .many hparameters hbodies | exact absurd rfl hform

theorem makes_unnamedFunction (hg : g.Produces) (start : Nat) :
    Makes g.source (g.unnamedFunction start) (Grown g.source .expression) := by
  refine Makes.after fun _ => Makes.after fun _ => makes_ite (fun _ => ?_) fun _ => ?_
  · refine Makes.after fun _ => (makes_parameterList hg).bind fun parameters hparameters => ?_
    refine Makes.after fun _ => Makes.after fun _ => (hg.expression .lowest).bind fun body hbody => ?_
    exact makes_close rfl (.many hparameters (.one hbody .nil))
  · refine Makes.after fun _ => Makes.after fun _ => (makes_parameterList hg).bind fun _ hparameters => ?_
    refine Makes.after fun _ => Makes.after fun _ => (makes_block hg).bind fun body hbody => ?_
    exact makes_close rfl (composes_function (by decide) hparameters hbody)

theorem makes_functionExpression (hg : g.Produces) : Makes g.source g.functionExpression
    (Grown g.source .expression) :=
  Makes.after fun _ => Makes.after fun _ => makes_unnamedFunction hg _

theorem makes_functionDeclaration (hg : g.Produces) (start : Nat) :
    Makes g.source (g.functionDeclaration start) (Grown g.source .statement) := by
  refine Makes.after fun _ => Makes.after fun _ => Makes.after fun _ => ?_
  refine (makes_parameterList hg).bind fun parameters hparameters => Makes.after fun _ => ?_
  refine (makes_block hg).bind fun body hbody => ?_
  exact makes_close rfl (composes_function (by decide) hparameters hbody)

/-! ### Class members -/

private theorem makes_methodBody (hg : g.Produces) :
    Makes g.source g.methodBody (AllGrown g.source .statement) :=
  Makes.after fun _ => makes_ite (fun _ => makes_pure allGrown_nil) fun _ => makes_block hg

private theorem makes_method (hg : g.Produces) (start : Nat) :
    Makes g.source (g.method start) (Grown g.source .member) := by
  refine Makes.after fun _ => Makes.after fun _ => Makes.after fun _ => ?_
  refine (makes_parameterList hg).bind fun parameters hparameters => Makes.after fun _ => ?_
  refine (makes_methodBody hg).bind fun body hbody => ?_
  exact makes_close rfl (composes_function (by decide) hparameters hbody)

private theorem makes_classConstant (g : Grammar) (start : Nat) :
    Makes g.source (g.classConstant start) (Grown g.source .member) :=
  Makes.after fun _ => Makes.after fun _ => Makes.after fun _ => Makes.after fun _ =>
    makes_close rfl (.last allGrown_nil trivial)

private theorem makes_enumCase (g : Grammar) (start : Nat) :
    Makes g.source (g.enumCase start) (Grown g.source .member) :=
  Makes.after fun _ => Makes.after fun _ => Makes.after fun _ => Makes.after fun _ =>
    makes_close rfl (.last allGrown_nil trivial)

private theorem makes_traitUse (start : Nat) : Makes source (traitUse start) (Grown source .member) :=
  Makes.after fun _ => Makes.after fun _ => Makes.after fun _ => makes_close rfl (.last allGrown_nil trivial)

private theorem makes_property (g : Grammar) (start : Nat) :
    Makes g.source (g.property start) (Grown g.source .member) :=
  Makes.after fun _ => Makes.after fun _ => Makes.after fun _ => Makes.after fun _ =>
    makes_close rfl (.last allGrown_nil trivial)

private theorem makes_modifiedMember (hg : g.Produces) (start constantStart : Nat) :
    Makes g.source (g.modifiedMember start constantStart) (Grown g.source .member) := by
  refine Makes.after fun _ => Makes.after fun token => ?_
  split
  · exact makes_method hg start
  · exact makes_classConstant g constantStart
  · exact makes_property g start

private theorem makes_classMember (hg : g.Produces) : Makes g.source g.classMember
    (Grown g.source .member) := by
  refine Makes.after fun _ => Makes.after fun _ => makes_ite (fun _ => makes_traitUse _) fun _ => ?_
  refine Makes.after fun _ => Makes.after fun _ => makes_ite (fun _ => makes_enumCase g _) fun _ => ?_
  exact Makes.after fun _ => makes_modifiedMember hg _ _

private theorem makes_classMembers (hg : g.Produces) :
    Makes g.source g.classMembers (AllGrown g.source .member) := by
  refine makes_repeating (AllGrown g.source .member) allGrown_nil fun members hinv => ?_
  refine Makes.after fun ended => makes_ite (fun _ => makes_pure (forall_mem_reverse hinv)) fun _ => ?_
  refine (makes_forward (makes_recover (makes_classMember hg))).bind fun found hfound => ?_
  cases found with
  | none => exact makes_pure hinv
  | some member => exact makes_pure (List.forall_mem_cons.2 ⟨hfound member rfl, hinv⟩)

private theorem makes_classBody (hg : g.Produces) : Makes g.source g.classBody (AllGrown g.source .member) :=
  Makes.after fun _ => (makes_classMembers hg).bind fun _ hmembers => Makes.after fun _ => makes_pure hmembers

/-! ### Classes -/

theorem makes_anonymousClass (hg : g.Produces) : Makes g.source g.anonymousClass
    (Grown g.source .expression) := by
  refine Makes.after fun _ => Makes.after fun _ => Makes.after fun _ => Makes.after fun _ => ?_
  refine (makes_optionalArguments hg).bind fun arguments harguments => ?_
  refine Makes.after fun _ => Makes.after fun _ => (makes_classBody hg).bind fun members hmembers => ?_
  exact makes_close rfl (.many harguments (.last hmembers trivial))

theorem makes_classDeclaration (hg : g.Produces) (start : Nat) :
    Makes g.source (g.classDeclaration start) (Grown g.source .statement) := by
  refine Makes.after fun _ => Makes.after fun _ => Makes.after fun _ => Makes.after fun _ => ?_
  refine Makes.after fun _ => (makes_classBody hg).bind fun _ hmembers => ?_
  exact makes_close rfl (.last hmembers trivial)

theorem makes_interfaceDeclaration (hg : g.Produces) (start : Nat) :
    Makes g.source (g.interfaceDeclaration start) (Grown g.source .statement) := by
  refine Makes.after fun _ => Makes.after fun _ => Makes.after fun _ => ?_
  exact (makes_classBody hg).bind fun _ hmembers => makes_close rfl (.last hmembers trivial)

theorem makes_traitDeclaration (hg : g.Produces) (start : Nat) :
    Makes g.source (g.traitDeclaration start) (Grown g.source .statement) := by
  refine Makes.after fun _ => Makes.after fun _ => ?_
  exact (makes_classBody hg).bind fun _ hmembers => makes_close rfl (.last hmembers trivial)

theorem makes_enumDeclaration (hg : g.Produces) (start : Nat) :
    Makes g.source (g.enumDeclaration start) (Grown g.source .statement) := by
  refine Makes.after fun _ => Makes.after fun _ => Makes.after fun _ => Makes.after fun _ => ?_
  exact (makes_classBody hg).bind fun _ hmembers => makes_close rfl (.last hmembers trivial)

end CaretContext.Php.Grammar
