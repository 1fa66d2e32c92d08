import CaretContext.Call.Invocation
import CaretContext.Proofs.Nesting

/-!
# The innermost call

The search for a call remembers the last one it meets. In a well nested forest the calls around an
offset lie on one path, so the last one met is below all others: there is none exactly when no call
contains the offset, and only the description of a call with a dynamic member can fail.
-/

namespace CaretContext

def isCallAround (offset : Nat) (n : Node) : Bool := n.kind.isCall && decide (n.span.Contains offset)

theorem isCallAround_iff {offset : Nat} {n : Node} :
    isCallAround offset n = true ↔ n.kind.isCall = true ∧ n.span.Contains offset := by
  rw [isCallAround, Bool.and_eq_true, decide_eq_true_iff]

private theorem callVisit_eq (offset : Nat) (found : Option Node) (n : Node) :
    callVisit offset found n =
      if Pruning.disjoint.skips n.span offset then (found, .skip)
      else (if n.kind.isCall then some n else found, .children) := by
  unfold callVisit
  split
  · rfl
  · split <;> rfl

private theorem disjoint_skips_of_encloses {m n : Node} (offset : Nat) (h : m.span.Encloses n.span)
    (hm : Pruning.disjoint.skips m.span offset = true) :
    Pruning.disjoint.skips n.span offset = true := by
  simp only [Pruning.skips, Bool.not_eq_true', decide_eq_false_iff_not] at hm ⊢
  exact fun hn => hm (h.contains hn)

private theorem foldl_latest (wanted : Occurrence → Bool) (ps : List Occurrence)
    (found : Option Node) :
    ps.foldl (fun found p => if wanted p then some p.node else found) found =
      ((ps.filter wanted).getLast?.map Occurrence.node).or found := by
  induction ps generalizing found with
  | nil => rfl
  | cons p ps ih =>
    rw [List.foldl_cons, ih, List.filter_cons]
    cases hp : wanted p with
    | false => rfl
    | true =>
      rw [if_pos rfl, if_pos rfl, List.getLast?_cons]
      cases hl : (ps.filter wanted).getLast? <;> rfl

private theorem innermostCall?_eq_getLast?_reached (roots : List Node) (offset : Nat) :
    innermostCall? roots offset =
      ((reached (fun n => Pruning.disjoint.skips n.span offset) roots).filter
        fun p => p.node.kind.isCall).getLast?.map Occurrence.node := by
  rw [innermostCall?, walk_eq_foldl_reached (callVisit_eq offset)]
  exact (foldl_latest (fun p => p.node.kind.isCall) _ none).trans Option.or_none

theorem mem_of_innermostCall? {roots : List Node} {offset : Nat} {c : Node}
    (h : innermostCall? roots offset = some c) : c ∈ nodesIn roots := by
  rw [innermostCall?_eq_getLast?_reached, Option.map_eq_some_iff] at h
  obtain ⟨p, hlast, rfl⟩ := h
  have hreached := (List.mem_filter.1 (List.mem_of_getLast? hlast)).1
  exact List.mem_map_of_mem (mem_occurrencesFrom_of_mem_reachedFrom hreached)

/-- The search finds the last of all calls around the offset, in pre-order. -/
theorem innermostCall?_eq_getLast? {roots : List Node} (h : WellNested roots) (offset : Nat) :
    innermostCall? roots offset =
      ((occurrences roots).filter fun p => isCallAround offset p.node).getLast?.map
        Occurrence.node := by
  let skips : Node → Bool := fun n => Pruning.disjoint.skips n.span offset
  have hcontains : ∀ n, skips n = false ↔ n.span.Contains offset := by
    intro n
    simp [skips, Pruning.skips]
  have hreached : ∀ p ∈ reached skips roots, p.node.kind.isCall = isCallAround offset p.node := by
    intro p hp
    have hp := (hcontains p.node).1 (not_skips_of_mem_reachedFrom hp)
    simp [isCallAround, hp]
  have hall := h.filter_reachedFrom (fun m n => disjoint_skips_of_encloses offset)
    (fun n hn => (hcontains n).2 (isCallAround_iff.1 hn).2) [] 0
  rw [innermostCall?_eq_getLast?_reached, List.filter_congr hreached]
  exact congrArg (fun ps => (List.getLast? ps).map Occurrence.node) hall

theorem mem_calls_around {roots : List Node} {offset : Nat} {p : Occurrence} :
    p ∈ (occurrences roots).filter (fun p => isCallAround offset p.node) ↔
      nodeAt? roots p.path = some p.node ∧ p.node.kind.isCall = true ∧
        p.node.span.Contains offset := by
  rw [List.mem_filter, mem_occurrences, isCallAround_iff]

private theorem innermostCall?_eq_none_iff {roots : List Node} (h : WellNested roots) (offset : Nat) :
    innermostCall? roots offset = none ↔
      ∀ path n, nodeAt? roots path = some n → n.kind.isCall = true → ¬n.span.Contains offset := by
  rw [innermostCall?_eq_getLast? h, Option.map_eq_none_iff, List.getLast?_eq_none_iff,
    List.eq_nil_iff_forall_not_mem]
  constructor
  · intro hnone path n hn hcall ho
    exact hnone ⟨path, n⟩ (mem_calls_around.2 ⟨hn, hcall, ho⟩)
  · intro hnone p hp
    obtain ⟨hn, hcall, ho⟩ := mem_calls_around.1 hp
    exact hnone p.path p.node hn hcall ho

private theorem innermostCall?_isBelow {roots : List Node} (h : WellNested roots) {offset : Nat} {c : Node}
    (hc : innermostCall? roots offset = some c) :
    ∃ path, nodeAt? roots path = some c ∧ c.kind.isCall = true ∧ c.span.Contains offset ∧
      ∀ path' n, nodeAt? roots path' = some n → n.kind.isCall = true → n.span.Contains offset →
        path' ≠ path → Occurrence.IsAbove ⟨path', n⟩ ⟨path, c⟩ := by
  rw [innermostCall?_eq_getLast? h, Option.map_eq_some_iff] at hc
  obtain ⟨p, hlast, rfl⟩ := hc
  obtain ⟨outer, hsplit⟩ := List.getLast?_eq_some_iff.1 hlast
  have hpath := h.pairwise_of_contains (isCallAround offset) offset
    fun n hn => (isCallAround_iff.1 hn).2
  rw [hsplit, List.pairwise_append] at hpath
  have hp := mem_calls_around.1 (hsplit ▸ List.mem_append_right outer List.mem_cons_self)
  refine ⟨p.path, hp.1, hp.2.1, hp.2.2, ?_⟩
  intro path' n hn hcall ho hne
  have hmem : ⟨path', n⟩ ∈ outer ++ [p] := hsplit ▸ mem_calls_around.2 ⟨hn, hcall, ho⟩
  rcases List.mem_append.1 hmem with hmem | hmem
  · exact (hpath.2.2 _ hmem p List.mem_cons_self).1
  · exact absurd (congrArg Occurrence.path (List.mem_singleton.1 hmem)) hne

theorem resolveInvocation_eq_ok_none_iff (roots : List Node) (source : Source) (offset : Nat)
    (skipComments : Bool) (hcall : ∀ c, innermostCall? roots offset = some c → c.kind.isCall) :
    resolveInvocation roots source offset skipComments = .ok none ↔
      innermostCall? roots offset = none := by
  unfold resolveInvocation
  cases hfound : innermostCall? roots offset with
  | none => simp
  | some c =>
    have hc := hcall c hfound
    cases hkind : c.kind with
    | functionCall callee arguments => simp [describeCall, hkind]
    | methodCall receiver operator member arguments =>
      cases hstart : parameterListStart source skipComments receiver operator member <;>
        simp [describeCall, hkind, hstart, Except.map]
    | _ => simp [hkind, Kind.isCall] at hc

/-- A call with a dynamic member is described once its member is found in the text. -/
theorem resolveInvocation_dynamic {roots : List Node} {offset : Nat} {call receiver value : Node}
    {operator : AccessOperator} {text : String} {arguments : List Node}
    (hcall : innermostCall? roots offset = some call)
    (hkind : call.kind = .methodCall receiver operator (.expression text value) arguments)
    (source : Source) (skipComments : Bool) :
    resolveInvocation roots source offset skipComments =
      (MemberScan.memberEnd ⟨source, operator, text, skipComments⟩ receiver.span.stop).map fun start =>
        some ⟨none, .method, callStack source call, argumentIndex arguments offset, start⟩ := by
  simp [resolveInvocation, hcall, describeCall, hkind, parameterListStart, Member.identifier?]

theorem resolveInvocation_error {roots : List Node} {source : Source} {offset : Nat}
    {skipComments : Bool} {cause : ScanError}
    (h : resolveInvocation roots source offset skipComments = .error cause) :
    ∃ c receiver operator text value arguments, innermostCall? roots offset = some c ∧
      c.kind = .methodCall receiver operator (.expression text value) arguments ∧
      MemberScan.memberEnd ⟨source, operator, text, skipComments⟩ receiver.span.stop =
        .error cause := by
  unfold resolveInvocation at h
  cases hfound : innermostCall? roots offset with
  | none => simp [hfound] at h
  | some c =>
    cases hkind : c.kind with
    | methodCall receiver operator member arguments =>
      cases member with
      | expression text value =>
        refine ⟨c, receiver, operator, text, value, arguments, rfl, hkind, ?_⟩
        cases hstart : MemberScan.memberEnd ⟨source, operator, text, skipComments⟩
            receiver.span.stop with
        | ok start => simp [hfound, describeCall, hkind, parameterListStart, hstart, Except.map] at h
        | error cause' =>
          simpa [hfound, describeCall, hkind, parameterListStart, hstart, Except.map] using h
      | named name span => simp [hfound, describeCall, hkind, parameterListStart, Except.map] at h
      | «variable» node => simp [hfound, describeCall, hkind, parameterListStart, Except.map] at h
    | _ => simp [hfound, describeCall, hkind] at h

theorem eq_ok_of_toOption {ε α : Type} {answer : Except ε α} {a : α} (h : answer.toOption = some a) :
    answer = .ok a := by
  cases answer with
  | error cause => cases h
  | ok b => exact congrArg Except.ok (Option.some.inj h)

/-- What is described is the innermost call, in all that is reported of it. -/
theorem resolveInvocation_eq_ok_some {roots : List Node} {source : Source} {offset : Nat}
    {skipComments : Bool} {invocation : Invocation}
    (h : resolveInvocation roots source offset skipComments = .ok (some invocation)) :
    ∃ call, innermostCall? roots offset = some call ∧
      ((∃ callee arguments name, call.kind = .functionCall callee arguments ∧
          (∀ x, name = some x → callee.kind = .identifier x) ∧
          invocation = ⟨name, .function, [terminalText source callee], argumentIndex arguments offset,
            callee.span.stop⟩) ∨
        ∃ receiver operator member arguments start,
          call.kind = .methodCall receiver operator member arguments ∧
          parameterListStart source skipComments receiver operator member = .ok start ∧
          invocation = ⟨member.identifier?, .method, callStack source call,
            argumentIndex arguments offset, start⟩) := by
  unfold resolveInvocation at h
  cases hfound : innermostCall? roots offset with
  | none => simp [hfound] at h
  | some call =>
    refine ⟨call, rfl, ?_⟩
    rw [hfound] at h
    cases hkind : call.kind with
    | functionCall callee arguments =>
      simp only [describeCall, hkind, Except.ok.injEq, Option.some.injEq] at h
      refine .inl ⟨callee, arguments, _, rfl, ?_, h.symm⟩
      intro x hx
      cases hcallee : callee.kind with
      | identifier name => rw [hcallee] at hx; rw [Option.some.inj hx]
      | _ => rw [hcallee] at hx; exact absurd hx (Option.some_ne_none x).symm
    | methodCall receiver operator member arguments =>
      simp only [describeCall, hkind] at h
      cases hstart : parameterListStart source skipComments receiver operator member with
      | error cause => simp [hstart, Except.map] at h
      | ok start =>
        simp only [hstart, Except.map, Except.ok.injEq, Option.some.injEq] at h
        exact .inr ⟨receiver, operator, member, arguments, start, rfl, hstart, h.symm⟩
    | _ => simp [describeCall, hkind] at h

theorem resolveInvocation_ok {roots : List Node} {source : Source} {offset : Nat} {skipComments : Bool}
    {invocation : Invocation}
    (h : resolveInvocation roots source offset skipComments = .ok (some invocation)) :
    ∃ call, innermostCall? roots offset = some call ∧
      ((∃ callee arguments, call.kind = .functionCall callee arguments ∧
          invocation.callStack = [terminalText source callee] ∧
          invocation.parameterListStart = callee.span.stop) ∨
        ∃ receiver operator member arguments, call.kind = .methodCall receiver operator member arguments ∧
          invocation.callStack = callStack source call ∧
          parameterListStart source skipComments receiver operator member =
            .ok invocation.parameterListStart) := by
  obtain ⟨call, hfound, hcall⟩ := resolveInvocation_eq_ok_some h
  refine ⟨call, hfound, ?_⟩
  rcases hcall with ⟨callee, arguments, name, hkind, -, rfl⟩ |
    ⟨receiver, operator, member, arguments, start, hkind, hstart, rfl⟩
  · exact .inl ⟨callee, arguments, hkind, rfl, rfl⟩
  · exact .inr ⟨receiver, operator, member, arguments, hkind, rfl, hstart⟩

/-- In a well nested forest the call found around an offset is the one below all others, nothing is
found or described only where no call is, and only a dynamic member makes the description fail. -/
theorem innermostCall?_of_wellNested {roots : List Node} (h : WellNested roots) (source : Source)
    (offset : Nat) (skipComments : Bool) :
    (innermostCall? roots offset = none ↔
      ∀ path n, nodeAt? roots path = some n → n.kind.isCall = true → ¬n.span.Contains offset) ∧
    (∀ c, innermostCall? roots offset = some c →
      ∃ path, nodeAt? roots path = some c ∧ c.kind.isCall = true ∧ c.span.Contains offset ∧
        ∀ path' n, nodeAt? roots path' = some n → n.kind.isCall = true → n.span.Contains offset →
          path' ≠ path → Occurrence.IsAbove ⟨path', n⟩ ⟨path, c⟩) ∧
    (resolveInvocation roots source offset skipComments = .ok none ↔
      ∀ path n, nodeAt? roots path = some n → n.kind.isCall = true → ¬n.span.Contains offset) ∧
    (∀ cause, resolveInvocation roots source offset skipComments = .error cause →
      ∃ c receiver operator text value arguments, innermostCall? roots offset = some c ∧
        c.kind = .methodCall receiver operator (.expression text value) arguments) := by
  have hfound : ∀ c, innermostCall? roots offset = some c → c.kind.isCall = true := by
    intro c hc
    obtain ⟨_, _, hcall, _⟩ := innermostCall?_isBelow h hc
    exact hcall
  refine ⟨innermostCall?_eq_none_iff h offset, fun c hc => innermostCall?_isBelow h hc, ?_, ?_⟩
  · rw [resolveInvocation_eq_ok_none_iff roots source offset skipComments hfound]
    exact innermostCall?_eq_none_iff h offset
  · intro cause hcause
    obtain ⟨c, receiver, operator, text, value, arguments, hc, hkind, -⟩ :=
      resolveInvocation_error hcause
    exact ⟨c, receiver, operator, text, value, arguments, hc, hkind⟩

theorem innermostCall?_nestedCalls :
    WellNested nestedCalls ∧ innermostCall? nestedCalls 3 ≠ none := by
  refine ⟨wellNested_nestedCalls, fun hnone => ?_⟩
  have hnocall := (innermostCall?_of_wellNested wellNested_nestedCalls ⟨[]⟩ 3 true).1.1 hnone
  exact hnocall [0, 1, 0] innerCall rfl rfl (by decide)

end CaretContext
