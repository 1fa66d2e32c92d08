import CaretContext.Proofs.PreOrder

/-!
# Walks as folds

A walk keeps on one stack what is left of every open level. It ends in the state of the plain recursion
over the tree nevertheless, whatever the visit makes of its state. So does a visit that also notes what it
is given, and its notes tell where a walk has been: at every occurrence at most once, in pre-order, and at
those whose ancestors were all entered.
-/

namespace CaretContext

variable {σ : Type}

/-! ### The plain recursion -/

section Fold

variable {visit : Visit σ} {state next : σ} {n : Node}

private theorem fold_of_children (h : visit state n = (next, .children)) :
    fold visit state n = foldForest visit next n.children := by
  rw [fold, h]

private theorem fold_of_skip (h : visit state n = (next, .skip)) : fold visit state n = next := by
  rw [fold, h]

@[simp] theorem foldForest_nil (visit : Visit σ) (state : σ) : foldForest visit state [] = state := by
  rw [foldForest]

@[simp] theorem foldForest_cons (visit : Visit σ) (state : σ) (n : Node) (ns : List Node) :
    foldForest visit state (n :: ns) = foldForest visit (fold visit state n) ns := by
  rw [foldForest]

end Fold

private theorem walk_eq_foldForest (visit : Visit σ) (state : σ) (forest : List Node) :
    walk visit state forest = foldForest visit state forest := by
  induction forest using forest_induction generalizing state with
  | nil => rw [walk_nil, foldForest_nil]
  | cons n ns ihc ihs =>
    rw [foldForest_cons]
    rcases hvisit : visit state n with ⟨next, descend⟩
    cases descend with
    | children => rw [walk_cons_of_children hvisit, walk_append, ihc, ihs, fold_of_children hvisit]
    | skip => rw [walk_cons_of_skip hvisit, ihs, fold_of_skip hvisit]

/-! ### What a walk visits -/

/-- An occurrence that was visited, and the decision on its children. -/
structure Visited where
  occurrence : Occurrence
  descend : Descend

/-- The visit that also notes each node it is given and what it decides. -/
def Visit.noting (visit : Visit σ) : Visit (σ × List (Node × Descend)) := fun noted n =>
  let (next, descend) := visit noted.1 n
  ((next, noted.2 ++ [(n, descend)]), descend)

/-- The visits below the path `above`, in order, when the first node of the forest has the number `i`
there. -/
def visitsFrom (visit : Visit σ) (state : σ) (above : List Nat) (i : Nat) : List Node → List Visited
  | [] => []
  | n :: ns =>
    ⟨⟨above ++ [i], n⟩, (visit state n).2⟩ ::
      ((match visit state n with
        | (next, .children) => visitsFrom visit next (above ++ [i]) 0 n.children
        | (_, .skip) => []) ++
        visitsFrom visit (fold visit state n) above (i + 1) ns)
termination_by forest => forestSize forest
decreasing_by
  · have := n.forestSize_children_lt
    rw [forestSize_cons]
    omega
  · have := n.sizeOf_pos
    rw [forestSize_cons]
    omega

def visits (visit : Visit σ) (state : σ) (roots : List Node) : List Visited :=
  visitsFrom visit state [] 0 roots

section Visits

variable {visit : Visit σ} {state next : σ} {above : List Nat} {i : Nat} {n : Node} {ns : List Node}
  {forest : List Node} {p q : Occurrence} {d : Descend}

@[simp] theorem visitsFrom_nil (visit : Visit σ) (state : σ) (above : List Nat) (i : Nat) :
    visitsFrom visit state above i [] = [] := by
  rw [visitsFrom]

private theorem visitsFrom_cons_of_children (h : visit state n = (next, .children)) :
    visitsFrom visit state above i (n :: ns) =
      ⟨⟨above ++ [i], n⟩, .children⟩ :: (visitsFrom visit next (above ++ [i]) 0 n.children ++
        visitsFrom visit (fold visit state n) above (i + 1) ns) := by
  rw [visitsFrom, h]

private theorem visitsFrom_cons_of_skip (h : visit state n = (next, .skip)) :
    visitsFrom visit state above i (n :: ns) =
      ⟨⟨above ++ [i], n⟩, .skip⟩ :: visitsFrom visit (fold visit state n) above (i + 1) ns := by
  rw [visitsFrom, h, List.nil_append]

private theorem walk_noting (visit : Visit σ) (state : σ) (notes : List (Node × Descend)) (above : List Nat)
    (i : Nat) (forest : List Node) :
    walk visit.noting (state, notes) forest =
      (walk visit state forest,
        notes ++ (visitsFrom visit state above i forest).map fun v => (v.occurrence.node, v.descend)) := by
  induction forest using forest_induction generalizing state notes above i with
  | nil => simp
  | cons n ns ihc ihs =>
    rcases hvisit : visit state n with ⟨next, descend⟩
    have hnoting : visit.noting (state, notes) n = ((next, notes ++ [(n, descend)]), descend) := by
      simp [Visit.noting, hvisit]
    cases descend with
    | children =>
      rw [walk_cons_of_children hnoting, walk_append, ihc _ _ (above ++ [i]) 0, ihs _ _ above (i + 1),
        walk_cons_of_children hvisit, walk_append, visitsFrom_cons_of_children hvisit,
        fold_of_children hvisit, walk_eq_foldForest visit next]
      simp
    | skip =>
      rw [walk_cons_of_skip hnoting, ihs _ _ above (i + 1), walk_cons_of_skip hvisit,
        visitsFrom_cons_of_skip hvisit, fold_of_skip hvisit]
      simp

private theorem sublist_visitsFrom (visit : Visit σ) (state : σ) (above : List Nat) (i : Nat)
    (forest : List Node) :
    ((visitsFrom visit state above i forest).map Visited.occurrence).Sublist
      (occurrencesFrom above i forest) := by
  induction forest using forest_induction generalizing state above i with
  | nil => simp
  | cons n ns ihc ihs =>
    rw [occurrencesFrom_cons]
    rcases hvisit : visit state n with ⟨next, descend⟩
    cases descend with
    | children =>
      rw [visitsFrom_cons_of_children hvisit, List.map_cons, List.map_append]
      exact ((ihc next (above ++ [i]) 0).append (ihs _ above (i + 1))).cons_cons _
    | skip =>
      rw [visitsFrom_cons_of_skip hvisit, List.map_cons]
      exact ((ihs _ above (i + 1)).trans (List.sublist_append_right _ _)).cons_cons _

private theorem nodup_occurrencesFrom (above : List Nat) (i : Nat) (forest : List Node) :
    ((occurrencesFrom above i forest).map Occurrence.path).Nodup := by
  rw [List.Nodup, List.pairwise_map]
  apply (pairwise_occurrencesFrom above i forest).imp
  intro p q hlt heq
  rw [heq] at hlt
  exact List.lt_irrefl _ hlt

private theorem mem_of_mem_visitsFrom (h : ⟨p, d⟩ ∈ visitsFrom visit state above i forest) :
    p ∈ occurrencesFrom above i forest :=
  (sublist_visitsFrom visit state above i forest).subset (List.mem_map_of_mem h)

private theorem prefix_of_subtree
    (h : p = ⟨above ++ [i], n⟩ ∨ p ∈ occurrencesFrom (above ++ [i]) 0 n.children) :
    above ++ [i] <+: p.path := by
  rcases h with rfl | h
  · exact List.prefix_refl _
  · exact (isAbove_of_mem_occurrencesFrom h n).1

private theorem not_mem_later (h : p = ⟨above ++ [i], n⟩ ∨ p ∈ occurrencesFrom (above ++ [i]) 0 n.children) :
    p ∉ occurrencesFrom above (i + 1) ns := by
  intro hlater
  exact (not_prefix_of_later (prefix_of_subtree h) hlater).1 (List.prefix_refl _)

private theorem not_mem_children : (⟨above ++ [i], n⟩ : Occurrence) ∉ occurrencesFrom
    (above ++ [i]) 0 n.children := by
  intro hbelow
  exact (isAbove_of_mem_occurrencesFrom hbelow n).ne rfl

/-- Of two occurrences one above the other, the upper one is the first root and the lower one below it,
or both are below it, or both are at or below later roots. -/
theorem isAbove_cases (hq : q ∈ occurrencesFrom above i (n :: ns))
    (hp : p ∈ occurrencesFrom above i (n :: ns)) (h : q.IsAbove p) :
    q = ⟨above ++ [i], n⟩ ∧ p ∈ occurrencesFrom (above ++ [i]) 0 n.children ∨
    q ∈ occurrencesFrom (above ++ [i]) 0 n.children ∧ p ∈ occurrencesFrom (above ++ [i]) 0 n.children ∨
    q ∈ occurrencesFrom above (i + 1) ns ∧ p ∈ occurrencesFrom above (i + 1) ns := by
  rw [occurrencesFrom_cons, List.mem_cons, List.mem_append, ← or_assoc] at hp hq
  rcases hp with hp | hp
  · rcases hq with hq | hq
    · rcases hp with rfl | hp
      · -- Nothing at or below the root is above it.
        exact absurd (h.1.eq_of_length_le (prefix_of_subtree hq).length_le) h.2
      · rcases hq with rfl | hq
        · exact .inl ⟨rfl, hp⟩
        · exact .inr (.inl ⟨hq, hp⟩)
    · exact absurd h.1 (not_prefix_of_later (prefix_of_subtree hp) hq).2
  · rcases hq with hq | hq
    · exact absurd h.1 (not_prefix_of_later (prefix_of_subtree hq) hp).1
    · exact .inr (.inr ⟨hq, hp⟩)

private theorem mem_visitsFrom_cons {v : Visited} :
    v ∈ visitsFrom visit state above i (n :: ns) ↔
      v = ⟨⟨above ++ [i], n⟩, (visit state n).2⟩ ∨
      ((visit state n).2 = .children ∧
        v ∈ visitsFrom visit (visit state n).1 (above ++ [i]) 0 n.children) ∨
      v ∈ visitsFrom visit (fold visit state n) above (i + 1) ns := by
  rcases hvisit : visit state n with ⟨next, descend⟩
  cases descend with
  | children => simp [visitsFrom_cons_of_children hvisit]
  | skip => simp [visitsFrom_cons_of_skip hvisit]

private theorem mem_visitsFrom_of_mem_children (hp : p ∈ occurrencesFrom (above ++ [i]) 0 n.children) :
    ⟨p, d⟩ ∈ visitsFrom visit state above i (n :: ns) ↔ (visit state n).2 = .children ∧
      ⟨p, d⟩ ∈ visitsFrom visit (visit state n).1 (above ++ [i]) 0 n.children := by
  rw [mem_visitsFrom_cons]
  constructor
  · rintro (heq | hbelow | hlater)
    · obtain ⟨rfl, -⟩ := Visited.mk.inj heq
      exact absurd hp not_mem_children
    · exact hbelow
    · exact absurd (mem_of_mem_visitsFrom hlater) (not_mem_later (.inr hp))
  · intro hbelow
    exact .inr (.inl hbelow)

private theorem mem_visitsFrom_of_mem_later (hp : p ∈ occurrencesFrom above (i + 1) ns) :
    ⟨p, d⟩ ∈ visitsFrom visit state above i (n :: ns) ↔
      ⟨p, d⟩ ∈ visitsFrom visit (fold visit state n) above (i + 1) ns := by
  rw [mem_visitsFrom_cons]
  constructor
  · rintro (heq | hbelow | hlater)
    · obtain ⟨rfl, -⟩ := Visited.mk.inj heq
      exact absurd hp (not_mem_later (.inl rfl))
    · exact absurd hp (not_mem_later (.inr (mem_of_mem_visitsFrom hbelow.2)))
    · exact hlater
  · intro hlater
    exact .inr (.inr hlater)

private theorem mem_visitsFrom_head :
    ⟨⟨above ++ [i], n⟩, d⟩ ∈ visitsFrom visit state above i (n :: ns) ↔ (visit state n).2 = d := by
  rw [mem_visitsFrom_cons]
  constructor
  · rintro (heq | hbelow | hlater)
    · exact (Visited.mk.inj heq).2.symm
    · exact absurd (mem_of_mem_visitsFrom hbelow.2) not_mem_children
    · exact absurd (mem_of_mem_visitsFrom hlater) (not_mem_later (.inl rfl))
  · rintro rfl
    exact .inl rfl

private theorem exists_mem_visitsFrom_iff (hp : p ∈ occurrencesFrom above i forest) :
    (∃ d, ⟨p, d⟩ ∈ visitsFrom visit state above i forest) ↔
      ∀ q ∈ occurrencesFrom above i forest, q.IsAbove p →
        ⟨q, .children⟩ ∈ visitsFrom visit state above i forest := by
  induction forest using forest_induction generalizing state above i with
  | nil => simp at hp
  | cons n ns ihc ihs =>
    have hcases := fun q hq => isAbove_cases (q := q) hq hp
    rw [occurrencesFrom_cons, List.mem_cons, List.mem_append] at hp
    rcases hp with rfl | hp | hp
    · -- Nothing is above the first root, which is always visited.
      simp only [mem_visitsFrom_head, exists_eq', true_iff]
      intro q hq habove
      rcases hcases q hq habove with ⟨-, h⟩ | ⟨-, h⟩ | ⟨-, h⟩
      · exact absurd h not_mem_children
      · exact absurd h not_mem_children
      · exact absurd h (not_mem_later (.inl rfl))
    · -- Above what is below the first root are that root and more of what is below it.
      simp only [mem_visitsFrom_of_mem_children hp, exists_and_left]
      rw [ihc hp]
      constructor
      · rintro ⟨hdescend, hbelow⟩ q hq habove
        rcases hcases q hq habove with ⟨rfl, -⟩ | ⟨hq, -⟩ | ⟨-, h⟩
        · exact mem_visitsFrom_head.2 hdescend
        · exact (mem_visitsFrom_of_mem_children hq).2 ⟨hdescend, hbelow q hq habove⟩
        · exact absurd h (not_mem_later (.inr hp))
      · intro h
        refine ⟨?_, ?_⟩
        · have hroot := h ⟨above ++ [i], n⟩ (by simp [occurrencesFrom_cons])
            (isAbove_of_mem_occurrencesFrom hp n)
          exact mem_visitsFrom_head.1 hroot
        · intro q hq habove
          have hvisited := h q (by simp [occurrencesFrom_cons, hq]) habove
          exact ((mem_visitsFrom_of_mem_children hq).1 hvisited).2
    · -- Later roots and what is below them have no part in the first one.
      simp only [mem_visitsFrom_of_mem_later hp]
      rw [ihs hp]
      constructor
      · intro hlater q hq habove
        rcases hcases q hq habove with ⟨-, h⟩ | ⟨-, h⟩ | ⟨hq, -⟩
        · exact absurd hp (not_mem_later (.inr h))
        · exact absurd hp (not_mem_later (.inr h))
        · exact (mem_visitsFrom_of_mem_later hq).2 (hlater q hq habove)
      · intro h q hq habove
        have hvisited := h q (by simp [occurrencesFrom_cons, hq]) habove
        exact (mem_visitsFrom_of_mem_later hq).1 hvisited

end Visits

/-- Whatever the visit does, a walk ends in the state of the plain recursion. The visits it makes, noted by
the walk itself, are occurrences of the forest in pre-order, each made at most once, and an occurrence is
among them exactly when the decision at every occurrence above it was to go on to the children. -/
theorem walk_visits_in_preorder (visit : Visit σ) (state : σ) (roots : List Node) :
    walk visit state roots = foldForest visit state roots ∧
    walk visit.noting (state, []) roots =
      (walk visit state roots, (visits visit state roots).map fun v => (v.occurrence.node, v.descend)) ∧
    ((visits visit state roots).map Visited.occurrence).Sublist (occurrences roots) ∧
    ((visits visit state roots).map fun v => v.occurrence.path).Nodup ∧
    ∀ p : Occurrence, (∃ d, ⟨p, d⟩ ∈ visits visit state roots) ↔
      nodeAt? roots p.path = some p.node ∧ ∀ q : Occurrence, nodeAt? roots q.path = some q.node →
        q.IsAbove p → ⟨q, .children⟩ ∈ visits visit state roots := by
  have hsublist := sublist_visitsFrom visit state [] 0 roots
  refine ⟨walk_eq_foldForest visit state roots, walk_noting visit state [] [] 0 roots, hsublist, ?_, ?_⟩
  · have hpaths := (hsublist.map Occurrence.path).nodup (nodup_occurrencesFrom [] 0 roots)
    rwa [List.map_map] at hpaths
  · intro p
    simp only [← mem_occurrences]
    constructor
    · rintro ⟨d, hvisited⟩
      have hp : p ∈ occurrences roots := mem_of_mem_visitsFrom hvisited
      exact ⟨hp, (exists_mem_visitsFrom_iff hp).1 ⟨d, hvisited⟩⟩
    · rintro ⟨hp, habove⟩
      exact (exists_mem_visitsFrom_iff hp).2 habove

/-- Two statements, the first with two expressions and the second with one. -/
def twoStatements : List Node :=
  [⟨.statement .other, ⟨0, 10⟩, [⟨.expression .literal, ⟨1, 3⟩, []⟩, ⟨.expression .literal, ⟨4, 9⟩, []⟩]⟩,
    ⟨.statement .other, ⟨11, 20⟩, [⟨.expression .literal, ⟨12, 14⟩, []⟩]⟩]

/-- Collects the starts of the nodes it is given, and enters those around offset 5. -/
def startsAroundFive : Visit (List Nat) := fun starts n =>
  (starts ++ [n.span.start], Pruning.disjoint.decide n.span 5)

theorem walk_visits_twoStatements :
    walk startsAroundFive [] twoStatements = [0, 1, 4, 11] ∧
    ¬ ∃ d, ⟨⟨[1, 0], ⟨.expression .literal, ⟨12, 14⟩, []⟩⟩, d⟩ ∈ visits startsAroundFive [] twoStatements := by
  obtain ⟨hfold, -, -, -, hvisited⟩ := walk_visits_in_preorder startsAroundFive [] twoStatements
  refine ⟨?_, ?_⟩
  · rw [hfold]
    simp [twoStatements, fold, startsAroundFive, Pruning.decide, Pruning.skips, Span.Contains, Span.last,
      Node.children, Kind.nodes]
  · rw [hvisited]
    rintro ⟨-, habove⟩
    have hroot := habove ⟨[1], ⟨.statement .other, ⟨11, 20⟩, [⟨.expression .literal, ⟨12, 14⟩, []⟩]⟩⟩
      rfl ⟨by decide, by decide⟩
    simp [visits, visitsFrom, twoStatements, fold, startsAroundFive, Pruning.decide, Pruning.skips,
      Span.Contains, Span.last, Node.children, Kind.nodes] at hroot

end CaretContext
