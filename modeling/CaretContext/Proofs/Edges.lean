import CaretContext.Proofs.InnermostCall
import CaretContext.ScopeChain

/-!
# Where answers change

When the caret moves on by one byte, an answer changes only at the edge of a node. A scope chain changes
behind a start and behind a last byte; an invocation at a start, behind a last byte, and once more a byte
later, where the caret is past an argument. The spans may be any at all.
-/

namespace CaretContext

variable {o : Nat}

private theorem Span.contains_succ_iff {s : Span} (hstart : s.start ≠ o + 1) (hlast : s.last ≠ o) :
    s.Contains (o + 1) ↔ s.Contains o := by
  simp only [Contains]
  omega

private theorem ScopeChain.visit_succ {n : Node} (hstart : n.span.start ≠ o) (hlast : n.span.last ≠ o)
    (gathered : Gathered) : visit (o + 1) gathered n = visit o gathered n := by
  by_cases hskips : o ≤ n.span.start
  · have hnext : o + 1 ≤ n.span.start := by omega
    simp [visit, Pruning.skips, hskips, hnext]
  · have hnext : ¬ o + 1 ≤ n.span.start := by omega
    have hcontains := n.span.contains_succ_iff (by omega) hlast
    simp [visit, Pruning.skips, hskips, hnext, hcontains]

private theorem callVisit_succ {n : Node} (hstart : n.span.start ≠ o + 1) (hlast : n.span.last ≠ o)
    (found : Option Node) : callVisit (o + 1) found n = callVisit o found n := by
  have hskips : Pruning.disjoint.skips n.span (o + 1) = Pruning.disjoint.skips n.span o := by
    simp [Pruning.skips, n.span.contains_succ_iff hstart hlast]
  rw [callVisit, hskips, callVisit]

private theorem argumentIndex_succ {arguments : List Node} (h : ∀ a ∈ arguments, a.span.last + 1 ≠ o) :
    argumentIndex arguments (o + 1) = argumentIndex arguments o := by
  apply List.countP_congr
  intro a ha
  have hpassed := h a ha
  simp only [decide_eq_true_eq]
  omega

private theorem describeCall_succ {call : Node} (h : ∀ a ∈ call.children, a.span.last + 1 ≠ o)
    (source : Source) (skipComments : Bool) :
    describeCall source skipComments (o + 1) call = describeCall source skipComments o call := by
  have harguments : ∀ arguments : List Node, (∀ a ∈ arguments, a ∈ call.kind.nodes) →
      argumentIndex arguments (o + 1) = argumentIndex arguments o := by
    intro arguments hmem
    apply argumentIndex_succ
    intro a ha
    exact h a (List.mem_append_left _ (hmem a ha))
  cases hkind : call.kind with
  | functionCall callee arguments =>
    have hsame := harguments arguments (by intro a ha; simp [hkind, Kind.nodes, ha])
    simp only [describeCall, hkind, hsame]
  | methodCall receiver operator member arguments =>
    have hsame := harguments arguments (by intro a ha; simp [hkind, Kind.nodes, ha])
    simp only [describeCall, hkind, hsame]
  | _ => simp only [describeCall, hkind]

/-- The scope chain is the same at the next offset unless a node starts or has its last byte here, and so
is the invocation unless a node starts at the next offset, has its last byte here, or had it one byte
before. -/
theorem answers_succ (roots : List Node) (source : Source) (skipComments : Bool) (o : Nat) :
    ((∀ n ∈ nodesIn roots, n.span.start ≠ o ∧ n.span.last ≠ o) →
      ScopeChain.resolve roots (o + 1) = ScopeChain.resolve roots o) ∧
    ((∀ n ∈ nodesIn roots, n.span.start ≠ o + 1 ∧ n.span.last ≠ o ∧ n.span.last + 1 ≠ o) →
      resolveInvocation roots source (o + 1) skipComments =
        resolveInvocation roots source o skipComments) := by
  constructor
  · intro hedges
    have hwalk : walk (ScopeChain.visit (o + 1)) ⟨[], []⟩ roots =
        walk (ScopeChain.visit o) ⟨[], []⟩ roots :=
      walk_congr (fun n hn => ScopeChain.visit_succ (hedges n hn).1 (hedges n hn).2) ⟨[], []⟩
    rw [ScopeChain.resolve, hwalk, ScopeChain.resolve]
  · intro hedges
    have hcall : innermostCall? roots (o + 1) = innermostCall? roots o :=
      walk_congr (fun n hn => callVisit_succ (hedges n hn).1 (hedges n hn).2.1) none
    rw [resolveInvocation, hcall, resolveInvocation]
    cases hfound : innermostCall? roots o with
    | none => rfl
    | some call =>
      have hpassed : ∀ a ∈ call.children, a.span.last + 1 ≠ o := by
        intro a ha
        exact (hedges a (mem_nodesIn_of_mem_children (mem_of_innermostCall? hfound) ha)).2.2
      exact describeCall_succ hpassed source skipComments

def twoArguments : List Node :=
  [⟨.functionCall ⟨.identifier "foo", ⟨0, 3⟩, []⟩
    [⟨.glue .argument, ⟨4, 7⟩, [⟨.variable "ab", ⟨4, 7⟩, []⟩]⟩,
      ⟨.glue .argument, ⟨9, 12⟩, [⟨.variable "cd", ⟨9, 12⟩, []⟩]⟩], ⟨0, 13⟩, []⟩]

theorem answers_succ_twoArguments :
    (∀ n ∈ nodesIn twoArguments, n.span.start ≠ 10 ∧ n.span.last ≠ 10) ∧
    ScopeChain.resolve twoArguments 11 = ScopeChain.resolve twoArguments 10 ∧
    (∀ n ∈ nodesIn twoArguments, n.span.start ≠ 11 ∧ n.span.last ≠ 10 ∧ n.span.last + 1 ≠ 10) ∧
    resolveInvocation twoArguments ⟨[]⟩ 11 true = resolveInvocation twoArguments ⟨[]⟩ 10 true := by
  have hscope : ∀ n ∈ nodesIn twoArguments, n.span.start ≠ 10 ∧ n.span.last ≠ 10 := by
    simp [twoArguments, Node.children, Kind.nodes, Span.last]
  have hcall : ∀ n ∈ nodesIn twoArguments,
      n.span.start ≠ 11 ∧ n.span.last ≠ 10 ∧ n.span.last + 1 ≠ 10 := by
    simp [twoArguments, Node.children, Kind.nodes, Span.last]
  obtain ⟨hchain, hinvocation⟩ := answers_succ twoArguments ⟨[]⟩ true 10
  exact ⟨hscope, hchain hscope, hcall, hinvocation hcall⟩

end CaretContext
