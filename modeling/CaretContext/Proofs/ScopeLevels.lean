import CaretContext.Proofs.Nesting
import CaretContext.ScopeChain

/-!
# The levels of a scope chain

The walk for a scope chain goes on past constructs that end before the caret and never takes back
what it has gathered. In a well nested forest the scopes it gathers are nevertheless exactly the
scope-defining constructs around the caret, and they lie on one path with the outer ones first.
-/

namespace CaretContext

namespace ScopeChain

/-- Whether the node is a scope that the caret is inside of, and not right in front of. -/
def isScopeAround (offset : Nat) (n : Node) : Bool :=
  n.kind.isScopeDefining && decide (n.span.start < offset ∧ offset ≤ n.span.last)

theorem isScopeAround_iff {offset : Nat} {n : Node} :
    isScopeAround offset n = true ↔
      n.kind.isScopeDefining = true ∧ n.span.start < offset ∧ offset ≤ n.span.last := by
  rw [isScopeAround, Bool.and_eq_true, decide_eq_true_iff]

/-- What the visit of a node that starts before the caret adds. -/
def gather (offset : Nat) (gathered : Gathered) (n : Node) : Gathered :=
  if n.kind.category = .glue then gathered
  else if n.kind.isScopeDefining then
    ⟨if n.span.Contains offset then gathered.scopes ++ [n.label] else gathered.scopes, []⟩
  else ⟨gathered.scopes, gathered.members ++ [n.label]⟩

theorem visit_eq (offset : Nat) (gathered : Gathered) (n : Node) :
    visit offset gathered n =
      if Pruning.startsAtOrAfter.skips n.span offset then (gathered, .skip)
      else (gather offset gathered n, .children) := by
  unfold visit gather
  split
  · rfl
  · split
    · rfl
    · split
      · split <;> rfl
      · rfl

theorem startsAtOrAfter_skips_of_encloses {m n : Node} (offset : Nat)
    (h : m.span.Encloses n.span) (hm : Pruning.startsAtOrAfter.skips m.span offset = true) :
    Pruning.startsAtOrAfter.skips n.span offset = true := by
  simp only [Pruning.skips, decide_eq_true_eq] at hm ⊢
  exact Nat.le_trans hm h.1

theorem category_ne_glue_of_isScopeDefining {n : Node} (h : n.kind.isScopeDefining = true) :
    n.kind.category ≠ .glue := by
  cases hkind : n.kind with
  | classLike form => cases form <;> simp [Kind.category, ClassLike.category]
  | functionLike form => cases form <;> simp [Kind.category, FunctionLike.category]
  | statement form => simp [hkind, Kind.isScopeDefining] at h
  | glue form => simp [hkind, Kind.isScopeDefining] at h
  | identifier name => simp [hkind, Kind.isScopeDefining] at h
  | _ => simp [Kind.category]

private theorem gather_scopes {offset : Nat} {n : Node} (hstart : n.span.start < offset)
    (gathered : Gathered) :
    (gather offset gathered n).scopes =
      gathered.scopes ++ if isScopeAround offset n then [n.label] else [] := by
  unfold gather
  by_cases hscope : n.kind.isScopeDefining = true
  · have hglue := category_ne_glue_of_isScopeDefining hscope
    by_cases hlast : offset ≤ n.span.last
    · have hcontains : n.span.Contains offset := ⟨Nat.le_of_lt hstart, hlast⟩
      simp [hglue, hscope, hcontains, isScopeAround, hstart, hlast]
    · have hcontains : ¬n.span.Contains offset := fun h => hlast h.2
      simp [hglue, hscope, hcontains, isScopeAround, hlast]
  · split <;> simp [hscope, isScopeAround]

theorem foldl_gather_scopes {offset : Nat} (ps : List Occurrence) (gathered : Gathered)
    (hstart : ∀ p ∈ ps, p.node.span.start < offset) :
    (ps.foldl (fun gathered p => gather offset gathered p.node) gathered).scopes =
      gathered.scopes ++ (ps.filter fun p => isScopeAround offset p.node).map (·.node.label) := by
  induction ps generalizing gathered with
  | nil => simp
  | cons p ps ih =>
    have hp := hstart p List.mem_cons_self
    have hps := fun q hq => hstart q (List.mem_cons_of_mem p hq)
    rw [List.foldl_cons, ih _ hps, gather_scopes hp, List.filter_cons]
    cases hk : isScopeAround offset p.node <;> simp

/-- The scopes gathered are the labels of all scopes around the caret, in pre-order. -/
theorem walk_scopes_eq {roots : List Node} (h : WellNested roots) (offset : Nat) :
    (walk (visit offset) ⟨[], []⟩ roots).scopes =
      ((occurrences roots).filter fun p => isScopeAround offset p.node).map (·.node.label) := by
  let skips : Node → Bool := fun n => Pruning.startsAtOrAfter.skips n.span offset
  have hskips : ∀ n, skips n = false ↔ n.span.start < offset := by
    intro n
    simp [skips, Pruning.skips]
  have hall := h.filter_reachedFrom (fun m n => startsAtOrAfter_skips_of_encloses offset)
    (fun n hn => (hskips n).2 (isScopeAround_iff.1 hn).2.1) [] 0
  rw [walk_eq_foldl_reached (visit_eq offset), foldl_gather_scopes, List.nil_append]
  · exact congrArg (List.map (·.node.label)) hall
  · exact fun p hp => (hskips p.node).1 (not_skips_of_mem_reachedFrom hp)

/-- In a well nested forest the scopes of a chain are exactly the scope-defining constructs around
the caret, each once, each above and enclosing the later ones. -/
theorem scopes_of_wellNested {roots : List Node} (h : WellNested roots) (offset : Nat) :
    let gathered := walk (visit offset) ⟨[], []⟩ roots
    resolve roots offset = ⟨gathered.scopes ++ gathered.members⟩ ∧
    ∃ around : List Occurrence,
      gathered.scopes = around.map (·.node.label) ∧ around.Nodup ∧
      (∀ p, p ∈ around ↔ nodeAt? roots p.path = some p.node ∧
        p.node.kind.isScopeDefining = true ∧ p.node.span.start < offset ∧
        offset ≤ p.node.span.last) ∧
      around.Pairwise Occurrence.IsAbove ∧
      around.Pairwise fun p q => p.node.span.Encloses q.node.span := by
  have hpath := h.pairwise_of_contains (isScopeAround offset) offset fun n hn =>
    ⟨Nat.le_of_lt (isScopeAround_iff.1 hn).2.1, (isScopeAround_iff.1 hn).2.2⟩
  refine ⟨rfl, (occurrences roots).filter fun p => isScopeAround offset p.node,
    walk_scopes_eq h offset, ?_, ?_, ?_, ?_⟩
  · exact hpath.imp fun hpq => hpq.1.ne
  · intro p
    rw [List.mem_filter, mem_occurrences, isScopeAround_iff]
  · exact hpath.imp And.left
  · exact hpath.imp And.right

theorem scopes_nestedCalls :
    WellNested nestedCalls ∧
      "FunctionCall" ∈ (walk (visit 3) ⟨[], []⟩ nestedCalls).scopes := by
  obtain ⟨-, around, hscopes, -, hmem, -⟩ := scopes_of_wellNested wellNested_nestedCalls 3
  refine ⟨wellNested_nestedCalls, ?_⟩
  rw [hscopes, List.mem_map]
  exact ⟨⟨[0, 1, 0], innerCall⟩, (hmem _).2 ⟨rfl, rfl, by decide, by decide⟩, rfl⟩

end ScopeChain

end CaretContext
