import CaretContext.Proofs.InnermostCall
import CaretContext.Proofs.TrailingStatements

/-!
# Calls in a scope chain

Nothing but a call has the label of a call. In a well nested forest the calls of a scope chain are
therefore those around the caret that start before it, and the last of them is the innermost call. Only
where that one starts right at the caret do the two answers differ: the chain passes it over.
-/

namespace CaretContext

def callLabels : List String :=
  ["FunctionCall", "MethodCall", "NullSafeMethodCall", "StaticMethodCall"]

private theorem label_mem_callLabels_iff (n : Node) : n.label ∈ callLabels ↔ n.kind.isCall = true := by
  unfold Node.label
  cases n.kind with
  | classLike form => cases form <;> simp [Kind.label, ClassLike.label, callLabels, Kind.isCall]
  | functionLike form =>
    cases form <;> simp [Kind.label, FunctionLike.label, callLabels, Kind.isCall]
  | controlFlow form => cases form <;> simp [Kind.label, ControlFlow.label, callLabels, Kind.isCall]
  | statement form => cases form <;> simp [Kind.label, PlainStatement.label, callLabels, Kind.isCall]
  | expression form => cases form <;> simp [Kind.label, PlainExpression.label, callLabels, Kind.isCall]
  | glue form => cases form <;> simp [Kind.label, Glue.label, callLabels, Kind.isCall]
  | methodCall receiver operator member arguments =>
    cases operator <;> simp [Kind.label, callLabels, Kind.isCall]
  | propertyAccess receiver operator member =>
    cases operator <;> simp [Kind.label, callLabels, Kind.isCall]
  | _ => simp [Kind.label, callLabels, Kind.isCall]

private theorem isScopeDefining_of_isCall {kind : Kind Node} (h : kind.isCall = true) :
    kind.isScopeDefining = true := by
  cases kind with
  | functionCall callee arguments => rfl
  | methodCall receiver operator member arguments => rfl
  | _ => simp [Kind.isCall] at h

namespace ScopeChain

variable {roots : List Node} {offset : Nat}

private theorem filter_isCall_entries (roots : List Node) (offset : Nat) :
    (entries roots offset).filter (fun p => p.node.kind.isCall) =
      ((occurrences roots).filter fun p => isCallAround offset p.node).filter
        fun p => decide (p.node.span.start < offset) := by
  have htrailing : (trailing roots offset).filter (fun p => p.node.kind.isCall) = [] := by
    rw [List.filter_eq_nil_iff]
    intro p hp hcall
    have hplain := (mem_trailing.1 hp).2.1
    have hscope := isScopeDefining_of_isCall hcall
    rw [isScopeDefining_eq_false_of_isPlainStatement hplain] at hscope
    exact absurd hscope Bool.false_ne_true
  rw [entries, List.filter_append, htrailing, List.append_nil, scopesAround, List.filter_filter,
    List.filter_filter]
  apply List.filter_congr
  intro p _
  rw [Bool.eq_iff_iff]
  simp only [Bool.and_eq_true, isScopeAround_iff, isCallAround_iff, decide_eq_true_eq, Span.Contains]
  constructor
  · rintro ⟨hcall, -, hstart, hlast⟩
    exact ⟨hstart, hcall, Nat.le_of_lt hstart, hlast⟩
  · rintro ⟨hstart, hcall, -, hlast⟩
    exact ⟨hcall, isScopeDefining_of_isCall hcall, hstart, hlast⟩

private theorem filter_callLabels_resolve (h : WellNested roots) (offset : Nat) :
    (resolve roots offset).labels.filter (fun l => decide (l ∈ callLabels)) =
      (((occurrences roots).filter fun p => isCallAround offset p.node).filter
        fun p => decide (p.node.span.start < offset)).map (·.node.label) := by
  have hlabel : ∀ p ∈ entries roots offset,
      ((fun l => decide (l ∈ callLabels)) ∘ fun p => p.node.label) p = p.node.kind.isCall := by
    intro p _
    rw [Bool.eq_iff_iff, Function.comp_apply, decide_eq_true_iff]
    exact label_mem_callLabels_iff p.node
  rw [resolve_eq h, List.filter_map, List.filter_congr hlabel, filter_isCall_entries]

/-- In a well nested forest a chain with the label of a call is one inside a call, and the last such label
is that of the innermost call, if that starts before the caret. One that starts at the caret has no entry
in the chain. -/
theorem callLabels_of_wellNested (h : WellNested roots) (offset : Nat) :
    resolve roots offset = ⟨(entries roots offset).map (·.node.label)⟩ ∧
    (∀ p, p ∈ entries roots offset ∧ p.node.label ∈ callLabels ↔
      nodeAt? roots p.path = some p.node ∧ p.node.kind.isCall = true ∧
        p.node.span.Contains offset ∧ p.node.span.start < offset) ∧
    (∀ l ∈ (resolve roots offset).labels, l ∈ callLabels → innermostCall? roots offset ≠ none) ∧
    ∀ c, innermostCall? roots offset = some c →
      (c.span.start < offset →
        ((resolve roots offset).labels.filter fun l => decide (l ∈ callLabels)).getLast? =
          some c.label) ∧
      (c.span.start = offset → ∀ path, ⟨path, c⟩ ∉ entries roots offset) := by
  have hcalls : ∀ p, p ∈ entries roots offset ∧ p.node.label ∈ callLabels ↔
      nodeAt? roots p.path = some p.node ∧ p.node.kind.isCall = true ∧
        p.node.span.Contains offset ∧ p.node.span.start < offset := by
    intro p
    have hfilter : p ∈ (entries roots offset).filter (fun p => p.node.kind.isCall) ↔
        p ∈ entries roots offset ∧ p.node.label ∈ callLabels := by
      rw [List.mem_filter, label_mem_callLabels_iff]
    rw [← hfilter, filter_isCall_entries, List.mem_filter, mem_calls_around, decide_eq_true_iff]
    simp only [and_assoc]
  refine ⟨resolve_eq h offset, hcalls, ?_, ?_⟩
  · intro l hl hlabel
    rw [innermostCall?_eq_getLast? h, Ne, Option.map_eq_none_iff, List.getLast?_eq_none_iff]
    intro hnone
    have hmem : l ∈ (resolve roots offset).labels.filter fun l => decide (l ∈ callLabels) :=
      List.mem_filter.2 ⟨hl, decide_eq_true hlabel⟩
    rw [filter_callLabels_resolve h, hnone] at hmem
    simp at hmem
  · intro c hc
    rw [innermostCall?_eq_getLast? h, Option.map_eq_some_iff] at hc
    obtain ⟨p, hlast, rfl⟩ := hc
    obtain ⟨outer, hsplit⟩ := List.getLast?_eq_some_iff.1 hlast
    constructor
    · intro hstart
      rw [filter_callLabels_resolve h, hsplit, List.filter_append]
      simp [hstart]
    · intro hstart path hmem
      have hcall := (mem_calls_around.1 (List.mem_of_getLast? hlast)).2.1
      have hbefore := ((hcalls ⟨path, p.node⟩).1 ⟨hmem, (label_mem_callLabels_iff _).2 hcall⟩).2.2.2
      exact absurd hstart (Nat.ne_of_lt hbefore)

theorem callLabels_nestedCalls :
    WellNested nestedCalls ∧ innermostCall? nestedCalls 3 = some innerCall ∧
      ((resolve nestedCalls 3).labels.filter fun l => decide (l ∈ callLabels)).getLast? =
        some "FunctionCall" := by
  have hcall : innermostCall? nestedCalls 3 = some innerCall := by
    simp [innermostCall?, walk, nestedCalls, innerCall, callVisit, Pruning.skips, Span.Contains,
      Span.last, Node.children, Kind.nodes, Kind.isCall]
  obtain ⟨-, -, -, hlast⟩ := callLabels_of_wellNested wellNested_nestedCalls 3
  exact ⟨wellNested_nestedCalls, hcall, (hlast innerCall hcall).1 (by decide)⟩

end ScopeChain

end CaretContext
