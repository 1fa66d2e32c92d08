import CaretContext.Proofs.ScopeLevels
import Mathlib.Data.List.DropRight
import Mathlib.Data.List.Induction

/-!
# Scope chains in two passes

The walk for a scope chain prunes, clears and gathers at once. The same chain is read off the list of all
constructs in pre-order: one pass leaves those that start before the caret, like everything above them,
and drops the glue; a second takes from these the scopes that reach the caret, and then what stands
behind the last scope. The spans may be any at all.
-/

namespace CaretContext

instance (p q : Occurrence) : Decidable (p.IsAbove q) := inferInstanceAs (Decidable (_ ∧ _))

/-! ### Pruning as a filter -/

/-- Whether the occurrence is not skipped and lies below none of the forest that is. -/
def IsLeft (skips : Node → Bool) (above : List Nat) (i : Nat) (forest : List Node) (p : Occurrence) : Prop :=
  ∀ q ∈ occurrencesFrom above i forest, q.path <+: p.path → skips q.node = false

instance (skips : Node → Bool) (above : List Nat) (i : Nat) (forest : List Node) (p : Occurrence) :
    Decidable (IsLeft skips above i forest p) :=
  inferInstanceAs (Decidable (∀ _ ∈ _, _))

section Pruning

variable {skips : Node → Bool} {above : List Nat} {i : Nat} {n : Node} {ns : List Node} {p : Occurrence}

private theorem isLeft_cons :
    IsLeft skips above i (n :: ns) p ↔ (above ++ [i] <+: p.path → skips n = false) ∧
      IsLeft skips (above ++ [i]) 0 n.children p ∧ IsLeft skips above (i + 1) ns p := by
  simp only [IsLeft, occurrencesFrom_cons, List.forall_mem_cons, List.forall_mem_append]

private theorem isLeft_head : IsLeft skips above i (n :: ns) ⟨above ++ [i], n⟩ ↔ skips n = false := by
  rw [isLeft_cons]
  constructor
  · intro h
    exact h.1 (List.prefix_refl _)
  · intro h
    refine ⟨fun _ => h, ?_, ?_⟩
    · intro q hq hpath
      have habove := isAbove_of_mem_occurrencesFrom hq n
      exact absurd (hpath.eq_of_length_le habove.1.length_le).symm habove.2
    · intro q hq hpath
      exact absurd hpath (not_prefix_of_later (List.prefix_refl _) hq).2

private theorem isLeft_of_mem_children (hp : p ∈ occurrencesFrom (above ++ [i]) 0 n.children) :
    IsLeft skips above i (n :: ns) p ↔
      skips n = false ∧ IsLeft skips (above ++ [i]) 0 n.children p := by
  have habove := (isAbove_of_mem_occurrencesFrom hp n).1
  rw [isLeft_cons]
  constructor
  · intro h
    exact ⟨h.1 habove, h.2.1⟩
  · intro h
    refine ⟨fun _ => h.1, h.2, ?_⟩
    intro q hq hpath
    exact absurd hpath (not_prefix_of_later habove hq).2

private theorem isLeft_of_mem_later (hp : p ∈ occurrencesFrom above (i + 1) ns) :
    IsLeft skips above i (n :: ns) p ↔ IsLeft skips above (i + 1) ns p := by
  rw [isLeft_cons]
  constructor
  · intro h
    exact h.2.2
  · intro h
    refine ⟨?_, ?_, h⟩
    · intro hpath
      exact absurd hpath (not_prefix_of_later (q := ⟨above ++ [i], n⟩) (List.prefix_refl _) hp).1
    · intro q hq hpath
      have habove := (isAbove_of_mem_occurrencesFrom hq n).1
      exact absurd hpath (not_prefix_of_later habove hp).1

/-- Pruning leaves the occurrences that are not skipped and lie below none that is, in their order. -/
theorem reachedFrom_eq_filter (skips : Node → Bool) (above : List Nat) (i : Nat) (forest : List Node) :
    reachedFrom skips above i forest =
      (occurrencesFrom above i forest).filter fun p => decide (IsLeft skips above i forest p) := by
  induction forest using forest_induction generalizing above i with
  | nil => rw [reachedFrom, occurrencesFrom_nil, List.filter_nil]
  | cons n ns ihc ihs =>
    have hlater : (occurrencesFrom above (i + 1) ns).filter
        (fun p => decide (IsLeft skips above i (n :: ns) p)) = reachedFrom skips above (i + 1) ns := by
      rw [ihs above (i + 1)]
      exact List.filter_congr fun p hp => decide_eq_decide.2 (isLeft_of_mem_later hp)
    rw [occurrencesFrom_cons, List.filter_cons, List.filter_append, hlater]
    cases hskips : skips n with
    | true =>
      have hnone : (occurrencesFrom (above ++ [i]) 0 n.children).filter
          (fun p => decide (IsLeft skips above i (n :: ns) p)) = [] := by
        rw [List.filter_eq_nil_iff]
        intro p hp
        simp [isLeft_of_mem_children hp, hskips]
      rw [reachedFrom_cons_of_skips hskips, hnone, if_neg (by simp [isLeft_head, hskips]),
        List.nil_append]
    | false =>
      have hall : (occurrencesFrom (above ++ [i]) 0 n.children).filter
          (fun p => decide (IsLeft skips above i (n :: ns) p)) =
            reachedFrom skips (above ++ [i]) 0 n.children := by
        rw [ihc (above ++ [i]) 0]
        refine List.filter_congr fun p hp => decide_eq_decide.2 ?_
        rw [isLeft_of_mem_children hp]
        exact and_iff_right hskips
      rw [reachedFrom_cons_of_not_skips hskips, hall, if_pos (by simp [isLeft_head, hskips])]

end Pruning

namespace ScopeChain

/-! ### The first pass -/

/-- Whether the occurrence and all above it start before the offset. -/
def StartsBefore (roots : List Node) (offset : Nat) (p : Occurrence) : Prop :=
  p.node.span.start < offset ∧ ∀ q ∈ occurrences roots, q.IsAbove p → q.node.span.start < offset

instance (roots : List Node) (offset : Nat) (p : Occurrence) : Decidable (StartsBefore roots offset p) :=
  inferInstanceAs (Decidable (_ ∧ _))

/-- The constructs that start before the offset, like all above them, in pre-order and without glue. -/
def begun (roots : List Node) (offset : Nat) : List Node :=
  (((occurrences roots).filter fun p => decide (StartsBefore roots offset p)).map Occurrence.node).filter
    fun n => decide (n.kind.category ≠ .glue)

private theorem isLeft_iff_startsBefore {roots : List Node} {offset : Nat} {p : Occurrence}
    (hp : p ∈ occurrences roots) :
    IsLeft (fun n => Pruning.startsAtOrAfter.skips n.span offset) [] 0 roots p ↔
      StartsBefore roots offset p := by
  simp only [IsLeft, Pruning.skips, decide_eq_false_iff_not, Nat.not_le]
  constructor
  · intro h
    refine ⟨h p hp (List.prefix_refl _), ?_⟩
    intro q hq habove
    exact h q hq habove.1
  · rintro ⟨hstart, habove⟩ q hq hpath
    by_cases hsame : q.path = p.path
    · -- One path leads to one node.
      have hnode : some q.node = some p.node := by
        rw [← mem_occurrences.1 hq, ← mem_occurrences.1 hp, hsame]
      rw [Option.some.inj hnode]
      exact hstart
    · exact habove q hq ⟨hpath, hsame⟩

private theorem reached_eq_filter_startsBefore (roots : List Node) (offset : Nat) :
    reached (fun n => Pruning.startsAtOrAfter.skips n.span offset) roots =
      (occurrences roots).filter fun p => decide (StartsBefore roots offset p) := by
  rw [reached, reachedFrom_eq_filter]
  exact List.filter_congr fun p hp => decide_eq_decide.2 (isLeft_iff_startsBefore hp)

/-! ### The second pass -/

/-- Of constructs in pre-order, those that stand behind the last scope. -/
def sinceLastScope (nodes : List Node) : List Node := nodes.rtakeWhile fun n => !n.kind.isScopeDefining

/-- The chain of a forest by way of the list of constructs begun before the caret. -/
def twoPass (roots : List Node) (offset : Nat) : ScopeChain :=
  let nodes := begun roots offset
  ⟨(nodes.filter fun n => n.kind.isScopeDefining && decide (offset ≤ n.span.last)).map Node.label ++
    (sinceLastScope nodes).map Node.label⟩

/-- Whether `xs` is the longest ending of `ys` without a scope-defining construct. -/
structure IsLongestScopeless (xs ys : List Node) : Prop where
  isSuffix : xs <:+ ys
  scopeless : ∀ n ∈ xs, n.kind.isScopeDefining = false
  longest : ∀ zs, zs <:+ ys → (∀ n ∈ zs, n.kind.isScopeDefining = false) → zs.length ≤ xs.length

private theorem sinceLastScope_append {nodes since : List Node}
    (h : ∀ n ∈ since, n.kind.isScopeDefining = false) :
    sinceLastScope (nodes ++ since) = sinceLastScope nodes ++ since := by
  have hreverse : ∀ n ∈ since.reverse, (!n.kind.isScopeDefining) = true := by
    intro n hn
    simp [h n (List.mem_reverse.1 hn)]
  rw [sinceLastScope, List.rtakeWhile, List.reverse_append, List.takeWhile_append_of_pos hreverse,
    List.reverse_append, List.reverse_reverse]
  rfl

private theorem isLongestScopeless_sinceLastScope (nodes : List Node) :
    IsLongestScopeless (sinceLastScope nodes) nodes := by
  refine ⟨List.rtakeWhile_suffix _ _, ?_, ?_⟩
  · intro n hn
    simpa using List.mem_rtakeWhile_imp hn
  · rintro since ⟨before, rfl⟩ hsince
    rw [sinceLastScope_append hsince, List.length_append]
    omega

/-- What a walk has gathered behind its scopes is what stands behind the last scope of the constructs met
so far. -/
theorem foldl_gather_members_eq (offset : Nat) (nodes : List Node) :
    (nodes.foldl (gather offset) ⟨[], []⟩).members =
      (sinceLastScope (nodes.filter fun n => decide (n.kind.category ≠ .glue))).map Node.label := by
  induction nodes using List.reverseRecOn with
  | nil => rfl
  | append_singleton nodes n ih =>
    rw [List.foldl_append, List.foldl_cons, List.foldl_nil, List.filter_append]
    by_cases hglue : n.kind.category = .glue
    · simp [gather, hglue, ih]
    · by_cases hscope : n.kind.isScopeDefining = true
      · simp [gather, hglue, hscope, sinceLastScope]
      · have hplain : ∀ m ∈ [n], m.kind.isScopeDefining = false := by simpa using hscope
        have hkept : [n].filter (fun n => decide (n.kind.category ≠ .glue)) = [n] := by simp [hglue]
        rw [hkept, sinceLastScope_append hplain, List.map_append, ← ih]
        simp [gather, hglue, hscope]

private theorem foldl_gather_scopes_eq {offset : Nat} {ps : List Occurrence}
    (hstart : ∀ p ∈ ps, p.node.span.start < offset) :
    (ps.foldl (fun gathered p => gather offset gathered p.node) ⟨[], []⟩).scopes =
      (((ps.map Occurrence.node).filter fun n => decide (n.kind.category ≠ .glue)).filter fun n =>
        n.kind.isScopeDefining && decide (offset ≤ n.span.last)).map Node.label := by
  rw [foldl_gather_scopes ps _ hstart, List.nil_append, List.filter_filter, List.filter_map, List.map_map]
  refine congrArg (List.map _) (List.filter_congr fun p hp => ?_)
  have hp := hstart p hp
  by_cases hscope : p.node.kind.isScopeDefining = true
  · simp [isScopeAround, hscope, hp, category_ne_glue_of_isScopeDefining hscope]
  · simp [isScopeAround, hscope]

/-- For any spans at all, the chain of a forest is that of the two passes: of the constructs that start
before the caret, like everything above them, in pre-order and without glue, first the scopes that reach
the caret, then the longest ending without a scope. -/
theorem resolve_eq_twoPass (roots : List Node) (offset : Nat) :
    resolve roots offset = twoPass roots offset ∧
      IsLongestScopeless (sinceLastScope (begun roots offset)) (begun roots offset) := by
  refine ⟨?_, isLongestScopeless_sinceLastScope _⟩
  have hstart : ∀ p ∈ (occurrences roots).filter fun p => decide (StartsBefore roots offset p),
      p.node.span.start < offset := by
    intro p hp
    exact (of_decide_eq_true (List.mem_filter.1 hp).2).1
  have hmembers := foldl_gather_members_eq offset
    (((occurrences roots).filter fun p => decide (StartsBefore roots offset p)).map Occurrence.node)
  rw [List.foldl_map] at hmembers
  rw [resolve, walk_eq_foldl_reached (visit_eq offset), reached_eq_filter_startsBefore, hmembers,
    foldl_gather_scopes_eq hstart]
  rfl

end ScopeChain

end CaretContext
