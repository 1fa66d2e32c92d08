import CaretContext.Proofs.Boundary
import CaretContext.Proofs.MemberText
import CaretContext.Proofs.Shift
import CaretContext.Proofs.Walk
import CaretContext.ScopeChain

/-!
# Answers move with the text

Nothing in a question depends on where the text begins: with text put in front, the tree and the offset
moved along, the scope chain stays as it is and an invocation only begins its parameter list further on.
-/

namespace CaretContext

def Source.behind (front : List Char) (source : Source) : Source := ⟨front ++ source.chars⟩

variable (front : List Char) (source : Source)

private theorem Source.drop_bytes_behind (start : Nat) :
    (source.behind front).bytes.drop (start + byteSize front) = source.bytes.drop start := by
  rw [bytes, behind, encode_append, Nat.add_comm, ← length_encode, List.drop_length_add_append]
  rfl

@[simp] theorem Source.charAt?_behind (offset : Nat) :
    (source.behind front).charAt? (offset + byteSize front) = source.charAt? offset := by
  rw [charAt?, behind, dropBytes?_add, charAt?]

@[simp] theorem Source.slice?_behind (span : Span) :
    (source.behind front).slice? (span.shift (byteSize front)) = source.slice? span := by
  simp only [slice?, behind, Span.start_shift, Span.stop_shift, dropBytes?_add,
    Nat.add_le_add_iff_right, Nat.add_sub_add_right]

/-! ### The scan for a member -/

namespace MemberScan

/-- The request for the source with text in front of it. -/
def Request.behind (r : Request) : Request := { r with source := r.source.behind front }

private theorem settle_behind (r : Request) (matched offset : Nat) (byte : UInt8) (bytes : List UInt8) :
    settle (r.behind front) matched (offset + byteSize front) byte bytes =
      shiftAnswer (byteSize front) (· + byteSize front) (settle r matched offset byte bytes) := by
  simp only [settle, Request.behind, Request.expected, Source.charAt?_behind]
  cases (encode r.operator.text.toList).idxOf? byte with
  | some position =>
    by_cases hposition : position < matched <;> simp [hposition, shiftAnswer, ScanError.shift]
  | none =>
    by_cases hmatched : matched < (encode r.operator.text.toList).length
    · simp [hmatched, shiftAnswer, ScanError.shift]
    · by_cases hfound : (encode r.member.toList).isPrefixOf bytes = true
      · simp [hmatched, hfound, shiftAnswer, Nat.add_right_comm]
      · simp [hmatched, hfound, shiftAnswer, ScanError.shift]

private theorem scan_behind (r : Request) (matched offset : Nat) (bytes : List UInt8) :
    scan (r.behind front) matched (offset + byteSize front) bytes =
      shiftAnswer (byteSize front) (· + byteSize front) (scan r matched offset bytes) := by
  have hskips : ∀ bytes, (if (r.behind front).skipComments then commentLength? bytes else none) =
      if r.skipComments then commentLength? bytes else none := fun bytes => rfl
  -- Both scans go over the same bytes; only the offsets they count are apart.
  fun_induction scan r matched offset bytes with
  | case1 matched offset => rw [scan]; rfl
  | case2 matched offset byte rest hblank ih =>
    rw [scan_blank hblank, Nat.add_right_comm]
    exact ih
  | case3 matched offset byte rest hblank n hcomment ih =>
    rw [scan_skip (by simpa using hblank) ((hskips _).trans hcomment), Nat.add_right_comm]
    exact ih
  | case4 matched offset byte rest hblank hcomment hnext ih =>
    have hnext : (r.behind front).expected[matched]? = some byte := hnext
    rw [scan_stop (by simpa using hblank) ((hskips _).trans hcomment), if_pos hnext, Nat.add_right_comm]
    exact ih
  | case5 matched offset byte rest hblank hcomment hnext =>
    have hnext : ¬(r.behind front).expected[matched]? = some byte := hnext
    rw [scan_stop (by simpa using hblank) ((hskips _).trans hcomment), if_neg hnext]
    exact settle_behind front r matched offset byte (byte :: rest)

private theorem memberEnd_behind (r : Request) (start : Nat) :
    memberEnd (r.behind front) (start + byteSize front) =
      shiftAnswer (byteSize front) (· + byteSize front) (memberEnd r start) := by
  have hbytes : (r.behind front).source.bytes.drop (start + byteSize front) =
      r.source.bytes.drop start := Source.drop_bytes_behind front r.source start
  rw [memberEnd, hbytes]
  exact scan_behind front r 0 start _

end MemberScan

/-! ### The description of a call -/

theorem terminalText_eq (n : Node) :
    terminalText source n =
      match n.kind with
      | .variable name => "$" ++ name
      | .identifier name => name
      | .functionCall callee _ => terminalText source callee ++ "()"
      | kind =>
        match source.slice? n.span with
        | some chars => String.ofList (trimBlank chars)
        | none => kind.label := by
  obtain ⟨kind, span, rest⟩ := n
  cases kind <;> exact terminalText.eq_def _ _

theorem callStack_eq (n : Node) :
    callStack source n =
      match n.kind with
      | .methodCall receiver _ member _ => callStack source receiver ++ [member.text ++ "()"]
      | .propertyAccess receiver _ member => callStack source receiver ++ [member.text]
      | .staticPropertyAccess _ property => [property]
      | _ => [terminalText source n] := by
  obtain ⟨kind, span, rest⟩ := n
  cases kind <;> exact callStack.eq_def _ _

private theorem terminalText_shift (n : Node) :
    terminalText (source.behind front) (n.shift (byteSize front)) = terminalText source n := by
  rw [terminalText_eq, terminalText_eq source n, Node.kind_shift, Node.span_shift,
    Source.slice?_behind]
  cases hkind : n.kind with
  | functionCall callee arguments => simp only [Kind.shift, terminalText_shift callee]
  | methodCall receiver operator member arguments => cases operator <;> rfl
  | propertyAccess receiver operator member => cases operator <;> rfl
  | _ => rfl
termination_by sizeOf n
decreasing_by
  apply Node.sizeOf_lt_of_mem_children
  simp [Node.children, Kind.nodes, hkind]

private theorem callStack_shift (n : Node) :
    callStack (source.behind front) (n.shift (byteSize front)) = callStack source n := by
  rw [callStack_eq, callStack_eq source n, Node.kind_shift, terminalText_shift]
  cases hkind : n.kind with
  | methodCall receiver operator member arguments =>
    simp only [Kind.shift, callStack_shift receiver, Member.text_shift]
  | propertyAccess receiver operator member =>
    simp only [Kind.shift, callStack_shift receiver, Member.text_shift]
  | _ => rfl
termination_by sizeOf n
decreasing_by
  all_goals
    apply Node.sizeOf_lt_of_mem_children
    simp [Node.children, Kind.nodes, hkind]

private theorem argumentIndex_shift (k : Nat) (arguments : List Node) (offset : Nat) :
    argumentIndex (shiftForest k arguments) (offset + k) = argumentIndex arguments offset := by
  rw [argumentIndex, shiftForest_eq_map, List.countP_map, argumentIndex]
  apply List.countP_congr
  intro argument _
  simp only [Function.comp_apply, Node.span_shift, Span.last_shift, decide_eq_true_eq]
  omega

private theorem parameterListStart_shift (skipComments : Bool) (receiver : Node) (operator : AccessOperator)
    (member : Member Node) :
    parameterListStart (source.behind front) skipComments (receiver.shift (byteSize front)) operator
        (member.shift (byteSize front)) =
      shiftAnswer (byteSize front) (· + byteSize front)
        (parameterListStart source skipComments receiver operator member) := by
  cases member with
  | named name span => rfl
  | «variable» node =>
    simp only [Member.shift, parameterListStart, Node.span_shift]
    rfl
  | expression text node =>
    simp only [Member.shift, parameterListStart, Node.span_shift, Span.stop_shift]
    exact MemberScan.memberEnd_behind front ⟨source, operator, text, skipComments⟩ receiver.span.stop

private theorem describeCall_shift (skipComments : Bool) (offset : Nat) (call : Node) :
    describeCall (source.behind front) skipComments (offset + byteSize front)
        (call.shift (byteSize front)) =
      shiftAnswer (byteSize front) (Option.map (Invocation.shift (byteSize front)))
        (describeCall source skipComments offset call) := by
  cases hkind : call.kind with
  | functionCall callee arguments =>
    simp only [describeCall, Node.kind_shift, hkind, Kind.shift, terminalText_shift, argumentIndex_shift,
      Node.span_shift, Span.stop_shift, shiftAnswer, Option.map_some, Invocation.shift]
    -- The name is that of the callee, which moves without changing it.
    cases callee.kind <;> rfl
  | methodCall receiver operator member arguments =>
    simp only [describeCall, Node.kind_shift, hkind, Kind.shift]
    rw [parameterListStart_shift, Member.identifier?_shift, callStack_shift, argumentIndex_shift]
    cases parameterListStart source skipComments receiver operator member <;> rfl
  | _ => simp [describeCall, hkind, Kind.shift, shiftAnswer]

/-! ### Both questions -/

private theorem innermostCall?_shift (k : Nat) (roots : List Node) (offset : Nat) :
    innermostCall? (roots.map (Node.shift k)) (offset + k) =
      (innermostCall? roots offset).map (Node.shift k) := by
  have hvisit : ∀ n ∈ nodesIn roots, ∀ found,
      callVisit (offset + k) (Option.map (Node.shift k) found) (n.shift k) =
        ((callVisit offset found n).1.map (Node.shift k), (callVisit offset found n).2) := by
    intro n _ found
    simp only [callVisit, Node.span_shift, Pruning.skips_shift, Node.kind_shift, Kind.isCall_shift]
    split
    · rfl
    · split <;> rfl
  exact walk_map (Node.children_shift k) hvisit none

private theorem ScopeChain.resolve_shift (k : Nat) (roots : List Node) (offset : Nat) :
    resolve (roots.map (Node.shift k)) (offset + k) = resolve roots offset := by
  have hvisit : ∀ n ∈ nodesIn roots, ∀ gathered,
      visit (offset + k) gathered (n.shift k) = visit offset gathered n := by
    intro n _ gathered
    simp only [visit, Node.span_shift, Pruning.skips_shift, Node.kind_shift, Kind.category_shift,
      Kind.isScopeDefining_shift, Span.contains_shift, Node.label_shift]
  have hwalk : walk (visit (offset + k)) ⟨[], []⟩ (roots.map (Node.shift k)) =
      walk (visit offset) ⟨[], []⟩ roots :=
    walk_map (f := id) (Node.children_shift k) hvisit ⟨[], []⟩
  rw [resolve, hwalk, resolve]

/-- With text put in front, and tree and offset moved by its bytes, the scope chain is the same and the
invocation, or the error in its place, the same but for the bytes that its position moves by. -/
theorem answers_shift (roots : List Node) (offset : Nat) (skipComments : Bool) :
    ScopeChain.resolve (roots.map (Node.shift (byteSize front))) (offset + byteSize front) =
      ScopeChain.resolve roots offset ∧
    resolveInvocation (roots.map (Node.shift (byteSize front))) (source.behind front)
        (offset + byteSize front) skipComments =
      shiftAnswer (byteSize front) (Option.map (Invocation.shift (byteSize front)))
        (resolveInvocation roots source offset skipComments) := by
  refine ⟨ScopeChain.resolve_shift (byteSize front) roots offset, ?_⟩
  rw [resolveInvocation, innermostCall?_shift, resolveInvocation]
  cases innermostCall? roots offset with
  | none => rfl
  | some call => exact describeCall_shift front source skipComments offset call

end CaretContext
