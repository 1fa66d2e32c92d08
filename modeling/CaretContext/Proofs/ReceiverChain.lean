import CaretContext.Proofs.InnermostCall
import CaretContext.Proofs.Translation

/-!
# The receiver chain of a call

A call's stack reads from the construct that the chain starts from to the call itself. It can be given by
the rules for each kind of link, and it can be gathered on the way from the call to its receivers, one
entry at a time, and turned round in the end. Its last entry goes with the name that is reported.
-/

namespace CaretContext

/-- What a method call or a property access is made on. -/
def Node.receiver? (n : Node) : Option Node :=
  match n.kind with
  | .methodCall receiver _ _ _ => some receiver
  | .propertyAccess receiver _ _ => some receiver
  | _ => none

private theorem Node.mem_children_of_receiver? {n receiver : Node} (h : n.receiver? = some receiver) :
    receiver ∈ n.children := by
  unfold Node.receiver? at h
  split at h
  · rename_i hkind
    simp [Node.children, Kind.nodes, hkind, Option.some.inj h]
  · rename_i hkind
    simp [Node.children, Kind.nodes, hkind, Option.some.inj h]
  · cases h

/-- The receivers along a chain, down to the first construct that has none. -/
def receivers (n : Node) : List Node :=
  match _h : n.receiver? with
  | some receiver => receiver :: receivers receiver
  | none => []
termination_by sizeOf n
decreasing_by exact Node.sizeOf_lt_of_mem_children (Node.mem_children_of_receiver? _h)

/-- Whether `render` follows the rules of a receiver chain: each link stands behind what it is made on, a
property of a class stands alone, and so does the text of anything else. -/
def IsRendering (source : Source) (render : Node → List String) : Prop :=
  ∀ n, render n =
    match n.kind with
    | .methodCall receiver _ member _ => render receiver ++ [member.text ++ "()"]
    | .propertyAccess receiver _ member => render receiver ++ [member.text]
    | .staticPropertyAccess _ property => [property]
    | _ => [terminalText source n]

/-- What is gathered on the way from a call to its receivers, in the order in which they are met. -/
def gatherReceivers (source : Source) (gathered : List String) (n : Node) : List String :=
  match _h : n.kind with
  | .methodCall receiver _ member _ =>
    gatherReceivers source (gathered ++ [member.text ++ "()"]) receiver
  | .propertyAccess receiver _ member => gatherReceivers source (gathered ++ [member.text]) receiver
  | .staticPropertyAccess _ property => gathered ++ [property]
  | _ => gathered ++ [terminalText source n]
termination_by sizeOf n
decreasing_by
  all_goals
    apply Node.sizeOf_lt_of_mem_children
    simp [Node.children, Kind.nodes, _h]

section Rendering

variable (source : Source)

variable {source} in
private theorem IsRendering.eq_callStack {render : Node → List String} (h : IsRendering source render)
    (n : Node) :
    render n = callStack source n := by
  rw [h n, callStack_eq source n]
  cases hkind : n.kind with
  | methodCall receiver operator member arguments => simp only [h.eq_callStack receiver]
  | propertyAccess receiver operator member => simp only [h.eq_callStack receiver]
  | _ => rfl
termination_by sizeOf n
decreasing_by
  all_goals
    apply Node.sizeOf_lt_of_mem_children
    simp [Node.children, Kind.nodes, hkind]

private theorem gatherReceivers_step (gathered : List String) (n : Node) :
    gatherReceivers source gathered n =
      match n.kind with
      | .methodCall receiver _ member _ =>
        gatherReceivers source (gathered ++ [member.text ++ "()"]) receiver
      | .propertyAccess receiver _ member => gatherReceivers source (gathered ++ [member.text]) receiver
      | .staticPropertyAccess _ property => gathered ++ [property]
      | _ => gathered ++ [terminalText source n] := by
  obtain ⟨kind, span, rest⟩ := n
  cases kind <;> exact gatherReceivers.eq_def _ _ _

private theorem gatherReceivers_eq (gathered : List String) (n : Node) :
    gatherReceivers source gathered n = gathered ++ (callStack source n).reverse := by
  rw [gatherReceivers_step, callStack_eq source n]
  cases hkind : n.kind with
  | methodCall receiver operator member arguments =>
    simp only [gatherReceivers_eq _ receiver, List.reverse_append, List.append_assoc]
    rfl
  | propertyAccess receiver operator member =>
    simp only [gatherReceivers_eq _ receiver, List.reverse_append, List.append_assoc]
    rfl
  | _ => rfl
termination_by sizeOf n
decreasing_by
  all_goals
    apply Node.sizeOf_lt_of_mem_children
    simp [Node.children, Kind.nodes, hkind]

private theorem callStack_of_receiver? {n receiver : Node} (h : n.receiver? = some receiver) :
    ∃ entry, callStack source n = callStack source receiver ++ [entry] := by
  unfold Node.receiver? at h
  rw [callStack_eq source n]
  cases hkind : n.kind with
  | methodCall r operator member arguments =>
    rw [hkind] at h
    obtain rfl := Option.some.inj h
    exact ⟨_, rfl⟩
  | propertyAccess r operator member =>
    rw [hkind] at h
    obtain rfl := Option.some.inj h
    exact ⟨_, rfl⟩
  | _ => simp [hkind] at h

private theorem callStack_of_receiver?_eq_none {n : Node} (h : n.receiver? = none) :
    ∃ entry, callStack source n = [entry] := by
  unfold Node.receiver? at h
  rw [callStack_eq source n]
  cases hkind : n.kind with
  | methodCall r operator member arguments => simp [hkind] at h
  | propertyAccess r operator member => simp [hkind] at h
  | _ => exact ⟨_, rfl⟩

private theorem length_callStack (n : Node) :
    (callStack source n).length = (receivers n).length + 1 := by
  fun_induction receivers n with
  | case1 n receiver hreceiver ih =>
    obtain ⟨entry, hstack⟩ := callStack_of_receiver? source hreceiver
    rw [hstack, List.length_append, ih]
    rfl
  | case2 n hreceiver =>
    obtain ⟨entry, hstack⟩ := callStack_of_receiver?_eq_none source hreceiver
    rw [hstack]
    rfl

private theorem callStack_prefix_of_mem_receivers {n receiver : Node}
    (h : receiver ∈ receivers n) : callStack source receiver <+: callStack source n := by
  fun_induction receivers n with
  | case1 n next hnext ih =>
    obtain ⟨entry, hstack⟩ := callStack_of_receiver? source hnext
    have hstep : callStack source next <+: callStack source n := ⟨[entry], hstack.symm⟩
    rcases List.mem_cons.1 h with rfl | h
    · exact hstep
    · exact (ih h).trans hstep
  | case2 n hnone => exact absurd h List.not_mem_nil

end Rendering

private theorem Member.text_of_identifier? {member : Member Node} {name : String}
    (h : member.identifier? = some name) : member.text = name := by
  cases member with
  | named text span =>
    simp only [Member.identifier?] at h
    split at h
    · cases h
    · exact Option.some.inj h
  | «variable» node => cases h
  | expression text node => cases h

section Reported

variable {roots : List Node} {source : Source} {offset : Nat} {skipComments : Bool}
  {invocation : Invocation}

/-- The stack of a method call ends with its member, and the member with the name, if there is one. -/
theorem callStack_of_method
    (h : resolveInvocation roots source offset skipComments = .ok (some invocation))
    (hform : invocation.form = .method) :
    ∃ call receiver operator member arguments, innermostCall? roots offset = some call ∧
      call.kind = .methodCall receiver operator member arguments ∧
      invocation.callStack = callStack source receiver ++ [member.text ++ "()"] ∧
      ∀ x, invocation.name = some x → invocation.callStack.getLast? = some (x ++ "()") := by
  obtain ⟨call, hfound, hcall⟩ := resolveInvocation_eq_ok_some h
  rcases hcall with ⟨callee, arguments, name, -, -, rfl⟩ |
    ⟨receiver, operator, member, arguments, start, hkind, -, rfl⟩
  · cases hform
  · have hstack : callStack source call = callStack source receiver ++ [member.text ++ "()"] := by
      rw [callStack_eq source call, hkind]
    refine ⟨call, receiver, operator, member, arguments, hfound, hkind, hstack, ?_⟩
    intro x hx
    have hentry : member.text = x := Member.text_of_identifier? hx
    show (callStack source call).getLast? = some (x ++ "()")
    rw [hstack, List.getLast?_concat, hentry]

/-- The stack of a function call is one entry, and that is the name, if there is one. -/
theorem callStack_of_function
    (h : resolveInvocation roots source offset skipComments = .ok (some invocation))
    (hform : invocation.form = .function) :
    ∃ entry, invocation.callStack = [entry] ∧ ∀ x, invocation.name = some x → entry = x := by
  obtain ⟨call, -, hcall⟩ := resolveInvocation_eq_ok_some h
  rcases hcall with ⟨callee, arguments, name, -, hname, rfl⟩ |
    ⟨receiver, operator, member, arguments, start, -, -, rfl⟩
  · refine ⟨terminalText source callee, rfl, ?_⟩
    intro x hx
    rw [terminalText_eq, hname x hx]
  · cases hform

end Reported

/-- A call's stack is the one that the rules of a receiver chain render, and what is gathered going outward
from the call, turned round. It is never empty, has an entry for each link and one for where the chain
starts, and begins with the stack of every receiver. The stack reported of a method call ends with its
member and parentheses, where the member is the name reported, if there is one; that of a function call
is a single entry, which is the name reported, if there is one. -/
theorem callStack_isRendering (source : Source) :
    IsRendering source (callStack source) ∧
    (∀ render, IsRendering source render → ∀ n, callStack source n = render n) ∧
    (∀ n, callStack source n = (gatherReceivers source [] n).reverse) ∧
    (∀ n, callStack source n ≠ []) ∧
    (∀ n, (callStack source n).length = 1 + (receivers n).length) ∧
    (∀ n, ∀ receiver ∈ receivers n, callStack source receiver <+: callStack source n) ∧
    (∀ roots offset skipComments invocation,
      resolveInvocation roots source offset skipComments = .ok (some invocation) →
      (invocation.form = .method →
        ∃ call receiver operator member arguments, innermostCall? roots offset = some call ∧
          call.kind = .methodCall receiver operator member arguments ∧
          invocation.callStack = callStack source receiver ++ [member.text ++ "()"] ∧
          ∀ x, invocation.name = some x → invocation.callStack.getLast? = some (x ++ "()")) ∧
      (invocation.form = .function →
        ∃ entry, invocation.callStack = [entry] ∧ ∀ x, invocation.name = some x → entry = x)) := by
  refine ⟨callStack_eq source, fun render h n => (h.eq_callStack n).symm, ?_, ?_, ?_,
    fun n receiver h => callStack_prefix_of_mem_receivers source h, ?_⟩
  · intro n
    rw [gatherReceivers_eq, List.nil_append, List.reverse_reverse]
  · intro n
    apply List.ne_nil_of_length_pos
    rw [length_callStack]
    omega
  · intro n
    rw [length_callStack, Nat.add_comm]
  · intro roots offset skipComments invocation h
    exact ⟨callStack_of_method h, callStack_of_function h⟩

/-- The property that the call of `$a->b->c()` is made on. -/
def propertyOfA : Node :=
  ⟨.propertyAccess ⟨.variable "a", ⟨0, 2⟩, []⟩ .arrow (.named "b" ⟨4, 5⟩), ⟨0, 5⟩, []⟩

def methodOfProperty : Node := ⟨.methodCall propertyOfA .arrow (.named "c" ⟨7, 8⟩) [], ⟨0, 10⟩, []⟩

private theorem receivers_methodOfProperty : propertyOfA ∈ receivers methodOfProperty := by
  rw [receivers]
  exact List.mem_cons_self

private theorem resolveInvocation_methodOfProperty :
    resolveInvocation [methodOfProperty] ⟨"$a->b->c()".toList⟩ 9 true =
      .ok (some ⟨some "c", .method, ["$a", "b", "c()"], 0, 8⟩) :=
  eq_ok_of_toOption (by decide +kernel)

theorem callStack_methodOfProperty :
    resolveInvocation [methodOfProperty] ⟨"$a->b->c()".toList⟩ 9 true =
      .ok (some ⟨some "c", .method, ["$a", "b", "c()"], 0, 8⟩) ∧
    propertyOfA ∈ receivers methodOfProperty ∧
    callStack ⟨"$a->b->c()".toList⟩ propertyOfA <+:
      callStack ⟨"$a->b->c()".toList⟩ methodOfProperty ∧
    ["$a", "b", "c()"].getLast? = some ("c" ++ "()") := by
  obtain ⟨-, -, -, -, -, hreceivers, hreported⟩ := callStack_isRendering ⟨"$a->b->c()".toList⟩
  obtain ⟨hmethod, -⟩ := hreported _ _ _ _ resolveInvocation_methodOfProperty
  obtain ⟨call, receiver, operator, member, arguments, -, -, -, hlast⟩ := hmethod rfl
  exact ⟨resolveInvocation_methodOfProperty, receivers_methodOfProperty,
    hreceivers _ _ receivers_methodOfProperty, hlast "c" rfl⟩

end CaretContext
