import CaretContext.Proofs.Occurrence

/-!
# What a walk comes to

The stack of a walk can be cut anywhere: what stands below the cut is walked with the state that the
part above it left. A visit whose decisions depend on the node alone therefore goes once over the
occurrences that pruning leaves, in pre-order.
-/

namespace CaretContext

variable {σ : Type}

@[simp] theorem walk_nil (visit : Visit σ) (state : σ) : walk visit state [] = state := by
  rw [walk]

theorem walk_cons_of_children {visit : Visit σ} {state next : σ} {n : Node}
    (h : visit state n = (next, .children)) (stack : List Node) :
    walk visit state (n :: stack) = walk visit next (n.children ++ stack) := by
  rw [walk, h]

theorem walk_cons_of_skip {visit : Visit σ} {state next : σ} {n : Node}
    (h : visit state n = (next, .skip)) (stack : List Node) :
    walk visit state (n :: stack) = walk visit next stack := by
  rw [walk, h]

theorem walk_append (visit : Visit σ) (state : σ) (above below : List Node) :
    walk visit state (above ++ below) = walk visit (walk visit state above) below := by
  fun_induction walk visit state above with
  | case1 state => rfl
  | case2 state n stack next hvisit ih =>
    rw [List.cons_append, walk_cons_of_children hvisit, ← ih, List.append_assoc]
  | case3 state n stack next hvisit ih =>
    rw [List.cons_append, walk_cons_of_skip hvisit, ih]

/-- Walks over two forests that correspond node by node go in step, when each visit does to the
state's counterpart what the other does to the state. -/
theorem walk_map {τ : Type} {visit : Visit σ} {visit' : Visit τ} {f : σ → τ} {g : Node → Node}
    (hchildren : ∀ n, (g n).children = n.children.map g) {forest : List Node}
    (hvisit : ∀ n ∈ nodesIn forest, ∀ state,
      visit' (f state) (g n) = (f (visit state n).1, (visit state n).2)) (state : σ) :
    walk visit' (f state) (forest.map g) = f (walk visit state forest) := by
  induction forest using forest_induction generalizing state with
  | nil => rw [List.map_nil, walk_nil, walk_nil]
  | cons n ns ihc ihs =>
    have hbelow := ihc fun m hm => hvisit m (by simp [hm])
    have hlater := ihs fun m hm => hvisit m (by simp [hm])
    have hn := hvisit n (by simp) state
    rcases hnext : visit state n with ⟨next, descend⟩
    rw [hnext] at hn
    rw [List.map_cons]
    cases descend with
    | children =>
      rw [walk_cons_of_children hn, walk_cons_of_children hnext, hchildren, walk_append, walk_append,
        hbelow, hlater]
    | skip => rw [walk_cons_of_skip hn, walk_cons_of_skip hnext, hlater]

theorem walk_congr {visit visit' : Visit σ} {forest : List Node}
    (hvisit : ∀ n ∈ nodesIn forest, ∀ state, visit' state n = visit state n) (state : σ) :
    walk visit' state forest = walk visit state forest := by
  have hwalk := walk_map (f := id) (g := id) (fun n => (List.map_id _).symm) hvisit state
  rwa [List.map_id] at hwalk

theorem walk_preserves {P : σ → Prop} {visit : Visit σ} {forest : List Node}
    (hvisit : ∀ n ∈ nodesIn forest, ∀ state, P state → P (visit state n).1) {state : σ} (h : P state) :
    P (walk visit state forest) := by
  induction forest using forest_induction generalizing state with
  | nil => rwa [walk_nil]
  | cons n ns ihc ihs =>
    have hbelow := @ihc fun m hm => hvisit m (by simp [hm])
    have hlater := @ihs fun m hm => hvisit m (by simp [hm])
    have hn := hvisit n (by simp) state h
    rcases hnext : visit state n with ⟨next, descend⟩
    rw [hnext] at hn
    cases descend with
    | children =>
      rw [walk_cons_of_children hnext, walk_append]
      exact hlater (hbelow hn)
    | skip =>
      rw [walk_cons_of_skip hnext]
      exact hlater hn

/-- A visit that prunes by the node alone changes the state once for each occurrence that is
left. -/
theorem walk_eq_foldl_reachedFrom {visit : Visit σ} {skips : Node → Bool} {step : σ → Node → σ}
    (hvisit : ∀ state n,
      visit state n = if skips n then (state, .skip) else (step state n, .children))
    (state : σ) (above : List Nat) (i : Nat) (forest : List Node) :
    walk visit state forest =
      (reachedFrom skips above i forest).foldl (fun state p => step state p.node) state := by
  induction forest using forest_induction generalizing state above i with
  | nil => rw [walk_nil, reachedFrom, List.foldl_nil]
  | cons n ns ihc ihs =>
    cases hskips : skips n with
    | true =>
      have hskip : visit state n = (state, .skip) := by rw [hvisit, if_pos hskips]
      rw [walk_cons_of_skip hskip, reachedFrom_cons_of_skips hskips]
      exact ihs state above (i + 1)
    | false =>
      have hdown : visit state n = (step state n, .children) := by
        rw [hvisit, if_neg (by rw [hskips]; decide)]
      rw [walk_cons_of_children hdown, walk_append, reachedFrom_cons_of_not_skips hskips,
        List.foldl_cons, List.foldl_append, ihc _ (above ++ [i]) 0, ihs _ above (i + 1)]

theorem walk_eq_foldl_reached {visit : Visit σ} {skips : Node → Bool} {step : σ → Node → σ}
    (hvisit : ∀ state n,
      visit state n = if skips n then (state, .skip) else (step state n, .children))
    (state : σ) (roots : List Node) :
    walk visit state roots = (reached skips roots).foldl (fun state p => step state p.node) state :=
  walk_eq_foldl_reachedFrom hvisit state [] 0 roots

end CaretContext
