import CaretContext.Node.Walk

/-!
# Occurrences in a forest

An occurrence is a node together with the way to it: the number of a root, then at each step the
number of a child. Equal nodes that occur twice are told apart by their paths, and one occurrence is
above another when its path is a proper beginning of the other's.
-/

namespace CaretContext

def Node.at? : Node → List Nat → Option Node
  | n, [] => some n
  | n, i :: path => n.children[i]?.bind (Node.at? · path)

/-- The node at a path whose first number is that of a root. -/
def nodeAt? (roots : List Node) : List Nat → Option Node
  | [] => none
  | i :: path => roots[i]?.bind (Node.at? · path)

/-- A node and the path to it. -/
structure Occurrence where
  path : List Nat
  node : Node

/-- Whether the first is a proper ancestor of the second. -/
def Occurrence.IsAbove (p q : Occurrence) : Prop := p.path <+: q.path ∧ p.path ≠ q.path

/-- The induction over all nodes of a forest: what holds of the children and of the later siblings
holds of a node with its later siblings. -/
theorem forest_induction {P : List Node → Prop} (nil : P [])
    (cons : ∀ n ns, P n.children → P ns → P (n :: ns)) (forest : List Node) : P forest := by
  have bounded : ∀ size ns, forestSize ns ≤ size → P ns := by
    intro size
    induction size with
    | zero =>
      intro ns hsize
      cases ns with
      | nil => exact nil
      | cons n ns =>
        have hpos := n.sizeOf_pos
        rw [forestSize_cons] at hsize
        omega
    | succ size ih =>
      intro ns hsize
      cases ns with
      | nil => exact nil
      | cons n ns =>
        have hpos := n.sizeOf_pos
        have hlt := n.forestSize_children_lt
        rw [forestSize_cons] at hsize
        exact cons n ns (ih _ (by omega)) (ih _ (by omega))
  exact bounded _ forest (Nat.le_refl _)

/-- The occurrences met in pre-order below the path `above`, when the first node of the forest has the
number `i` there and subtrees whose root is to be skipped are left out. -/
def reachedFrom (skips : Node → Bool) (above : List Nat) (i : Nat) : List Node → List Occurrence
  | [] => []
  | n :: ns =>
    (if skips n then [] else ⟨above ++ [i], n⟩ :: reachedFrom skips (above ++ [i]) 0 n.children) ++
      reachedFrom skips above (i + 1) ns
termination_by forest => forestSize forest
decreasing_by
  · have := n.forestSize_children_lt
    rw [forestSize_cons]
    omega
  · have := n.sizeOf_pos
    rw [forestSize_cons]
    omega

/-- The occurrences of a forest that pruning leaves, in pre-order. -/
def reached (skips : Node → Bool) (roots : List Node) : List Occurrence :=
  reachedFrom skips [] 0 roots

/-- All occurrences below the path `above`, in pre-order. -/
def occurrencesFrom (above : List Nat) (i : Nat) (forest : List Node) : List Occurrence :=
  reachedFrom (fun _ => false) above i forest

def occurrences (roots : List Node) : List Occurrence := occurrencesFrom [] 0 roots

theorem reachedFrom_cons_of_skips {skips : Node → Bool} {n : Node} (h : skips n = true)
    (above : List Nat) (i : Nat) (ns : List Node) :
    reachedFrom skips above i (n :: ns) = reachedFrom skips above (i + 1) ns := by
  rw [reachedFrom, if_pos h, List.nil_append]

theorem reachedFrom_cons_of_not_skips {skips : Node → Bool} {n : Node} (h : skips n = false)
    (above : List Nat) (i : Nat) (ns : List Node) :
    reachedFrom skips above i (n :: ns) =
      ⟨above ++ [i], n⟩ ::
        (reachedFrom skips (above ++ [i]) 0 n.children ++ reachedFrom skips above (i + 1) ns) := by
  rw [reachedFrom, if_neg (by rw [h]; decide), List.cons_append]

theorem not_skips_of_mem_reachedFrom {skips : Node → Bool} {above : List Nat} {i : Nat}
    {forest : List Node} {p : Occurrence} (h : p ∈ reachedFrom skips above i forest) :
    skips p.node = false := by
  induction forest using forest_induction generalizing above i with
  | nil => simp [reachedFrom] at h
  | cons n ns ihc ihs =>
    cases hskips : skips n with
    | true =>
      rw [reachedFrom_cons_of_skips hskips] at h
      exact ihs h
    | false =>
      rw [reachedFrom_cons_of_not_skips hskips, List.mem_cons, List.mem_append] at h
      rcases h with rfl | h | h
      · exact hskips
      · exact ihc h
      · exact ihs h

@[simp] theorem occurrencesFrom_nil (above : List Nat) (i : Nat) : occurrencesFrom above i [] = [] := by
  rw [occurrencesFrom, reachedFrom]

theorem occurrencesFrom_cons (above : List Nat) (i : Nat) (n : Node) (ns : List Node) :
    occurrencesFrom above i (n :: ns) =
      ⟨above ++ [i], n⟩ ::
        (occurrencesFrom (above ++ [i]) 0 n.children ++ occurrencesFrom above (i + 1) ns) :=
  reachedFrom_cons_of_not_skips rfl above i ns

/-- Every occurrence is found below `above`, at a child number not before `i`. -/
theorem mem_occurrencesFrom {above : List Nat} {i : Nat} {forest : List Node} {p : Occurrence} :
    p ∈ occurrencesFrom above i forest ↔
      ∃ k path, p.path = above ++ (i + k) :: path ∧
        forest[k]?.bind (Node.at? · path) = some p.node := by
  induction forest using forest_induction generalizing above i with
  | nil => simp
  | cons n ns ihc ihs =>
    rw [occurrencesFrom_cons, List.mem_cons, List.mem_append, ihc, ihs]
    constructor
    · rintro (rfl | ⟨k, path, hpath, hat⟩ | ⟨k, path, hpath, hat⟩)
      · exact ⟨0, [], rfl, rfl⟩
      · refine ⟨0, k :: path, ?_, hat⟩
        rw [hpath, Nat.zero_add, List.append_assoc]
        rfl
      · refine ⟨k + 1, path, ?_, hat⟩
        rw [hpath, Nat.add_right_comm, Nat.add_assoc]
    · rintro ⟨k, path, hpath, hat⟩
      cases k with
      | zero =>
        cases path with
        | nil =>
          have hnode : n = p.node := Option.some.inj hat
          exact .inl (by cases p; cases hpath; cases hnode; rfl)
        | cons j path =>
          refine .inr (.inl ⟨j, path, ?_, hat⟩)
          rw [hpath, Nat.zero_add, List.append_assoc]
          rfl
      | succ k =>
        refine .inr (.inr ⟨k, path, ?_, hat⟩)
        rw [hpath, Nat.add_right_comm, Nat.add_assoc]

theorem mem_occurrencesFrom_of_mem_reachedFrom {skips : Node → Bool} {above : List Nat} {i : Nat}
    {forest : List Node} {p : Occurrence} (h : p ∈ reachedFrom skips above i forest) :
    p ∈ occurrencesFrom above i forest := by
  induction forest using forest_induction generalizing above i with
  | nil => simp [reachedFrom] at h
  | cons n ns ihc ihs =>
    rw [occurrencesFrom_cons, List.mem_cons, List.mem_append]
    cases hskips : skips n with
    | true =>
      rw [reachedFrom_cons_of_skips hskips] at h
      exact .inr (.inr (ihs h))
    | false =>
      rw [reachedFrom_cons_of_not_skips hskips, List.mem_cons, List.mem_append] at h
      exact h.imp id (Or.imp ihc ihs)

theorem mem_occurrences {roots : List Node} {p : Occurrence} :
    p ∈ occurrences roots ↔ nodeAt? roots p.path = some p.node := by
  rw [occurrences, mem_occurrencesFrom]
  constructor
  · rintro ⟨k, path, hpath, hat⟩
    rw [hpath, List.nil_append, Nat.zero_add]
    exact hat
  · intro hat
    cases hp : p.path with
    | nil => rw [hp] at hat; exact absurd hat (Option.some_ne_none _).symm
    | cons k path =>
      rw [hp] at hat
      exact ⟨k, path, by rw [List.nil_append, Nat.zero_add], hat⟩

/-- What occurs among or below the children of a node is below that node. -/
theorem isAbove_of_mem_occurrencesFrom {above : List Nat} {i : Nat} {forest : List Node}
    {p : Occurrence} (h : p ∈ occurrencesFrom above i forest) (n : Node) :
    Occurrence.IsAbove ⟨above, n⟩ p := by
  obtain ⟨k, path, hpath, -⟩ := mem_occurrencesFrom.1 h
  rw [Occurrence.IsAbove, hpath]
  refine ⟨List.prefix_append _ _, fun he => ?_⟩
  have hlen : above.length = (above ++ (i + k) :: path).length := congrArg List.length he
  rw [List.length_append, List.length_cons] at hlen
  omega

section Paths

variable {above : List Nat} {i j : Nat} {ns : List Node} {p q : Occurrence}

private theorem exists_prefix_of_mem_occurrencesFrom (h : p ∈ occurrencesFrom above i ns) :
    ∃ k, above ++ [i + k] <+: p.path := by
  obtain ⟨k, path, hpath, -⟩ := mem_occurrencesFrom.1 h
  refine ⟨k, path, ?_⟩
  rw [hpath, List.append_assoc]
  rfl

private theorem eq_of_prefix_of_prefix (hq : above ++ [i] <+: q.path) (hp : above ++ [j] <+: p.path)
    (hqp : q.path <+: p.path) : i = j := by
  have hlength : (above ++ [i]).length ≤ (above ++ [j]).length := by simp
  have hsame := List.prefix_of_prefix_length_le (hq.trans hqp) hp hlength
  simpa using hsame.eq_of_length (by simp)

/-- What lies at or below a sibling and what lies among the later ones are not above each other. -/
theorem not_prefix_of_later (hq : above ++ [i] <+: q.path) (hp : p ∈ occurrencesFrom above (i + 1) ns) :
    ¬ q.path <+: p.path ∧ ¬ p.path <+: q.path := by
  obtain ⟨k, hk⟩ := exists_prefix_of_mem_occurrencesFrom hp
  constructor
  · intro hqp
    have := eq_of_prefix_of_prefix hq hk hqp
    omega
  · intro hpq
    have := eq_of_prefix_of_prefix hk hq hpq
    omega

end Paths

def nodesIn (forest : List Node) : List Node := (occurrences forest).map Occurrence.node

private theorem map_node_occurrencesFrom (above : List Nat) (i : Nat) (forest : List Node) :
    (occurrencesFrom above i forest).map Occurrence.node = nodesIn forest := by
  rw [nodesIn, occurrences]
  generalize hother : ([] : List Nat) = other, hj : (0 : Nat) = j
  clear hother hj
  induction forest using forest_induction generalizing above i other j with
  | nil => simp
  | cons n ns ihc ihs =>
    simp only [occurrencesFrom_cons, List.map_cons, List.map_append]
    rw [ihc _ 0 (other ++ [j]) 0, ihs _ (i + 1) other (j + 1)]

@[simp] theorem nodesIn_nil : nodesIn [] = [] := by simp [nodesIn, occurrences]

@[simp] theorem nodesIn_cons (n : Node) (ns : List Node) :
    nodesIn (n :: ns) = n :: (nodesIn n.children ++ nodesIn ns) := by
  rw [nodesIn, occurrences, occurrencesFrom_cons, List.map_cons, List.map_append,
    map_node_occurrencesFrom, map_node_occurrencesFrom]

@[simp] theorem nodesIn_append (as bs : List Node) : nodesIn (as ++ bs) = nodesIn as ++ nodesIn bs := by
  induction as with
  | nil => simp
  | cons a as ih => simp [ih]

theorem mem_nodesIn {roots : List Node} {n : Node} :
    n ∈ nodesIn roots ↔ ∃ path, nodeAt? roots path = some n := by
  simp only [nodesIn, List.mem_map, mem_occurrences]
  constructor
  · rintro ⟨p, hat, rfl⟩
    exact ⟨p.path, hat⟩
  · rintro ⟨path, hat⟩
    exact ⟨⟨path, n⟩, hat, rfl⟩

theorem mem_nodesIn_of_mem {n : Node} {ns : List Node} (h : n ∈ ns) : n ∈ nodesIn ns := by
  induction ns with
  | nil => simp at h
  | cons m ns ih =>
    rcases List.mem_cons.1 h with rfl | h
    · simp
    · simp [ih h]

theorem mem_nodesIn_of_mem_children {forest : List Node} {n c : Node} (hn : n ∈ nodesIn forest)
    (hc : c ∈ n.children) : c ∈ nodesIn forest := by
  induction forest using forest_induction with
  | nil => simp at hn
  | cons m ms ihc ihs =>
    rw [nodesIn_cons, List.mem_cons, List.mem_append] at hn ⊢
    rcases hn with rfl | hn | hn
    · exact .inr (.inl (mem_nodesIn_of_mem hc))
    · exact .inr (.inl (ihc hn))
    · exact .inr (.inr (ihs hn))

theorem Occurrence.IsAbove.ne {p q : Occurrence} (h : p.IsAbove q) : p ≠ q := fun he => h.2 (he ▸ rfl)

end CaretContext
