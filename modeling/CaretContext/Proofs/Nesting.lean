import CaretContext.Proofs.Walk

/-!
# Well nested forests

In a well nested forest every node covers its children, and siblings have no offset in common. The
occurrences whose span contains an offset then lie on one path from a root downwards, and pruning by
the span loses none of them.
-/

namespace CaretContext

/-- Whether the offsets from start to last byte of `t` are among those of `s`. -/
def Span.Encloses (s t : Span) : Prop := s.start ≤ t.start ∧ t.last ≤ s.last

/-- Every node encloses its children, and no two siblings contain a common offset. -/
inductive WellNested : List Node → Prop where
  | intro {forest : List Node}
      (apart : forest.Pairwise fun m n => ∀ o, ¬(m.span.Contains o ∧ n.span.Contains o))
      (encloses : ∀ n ∈ forest, ∀ c ∈ n.children, n.span.Encloses c.span)
      (deeper : ∀ n ∈ forest, WellNested n.children) : WellNested forest

namespace Span

variable {s t : Span} {o : Nat}

theorem Encloses.contains (h : s.Encloses t) (ho : t.Contains o) : s.Contains o :=
  ⟨Nat.le_trans h.1 ho.1, Nat.le_trans ho.2 h.2⟩

theorem Encloses.trans {u : Span} (h : s.Encloses t) (h' : t.Encloses u) : s.Encloses u :=
  ⟨Nat.le_trans h.1 h'.1, Nat.le_trans h'.2 h.2⟩

private theorem apart_iff (s t : Span) :
    (∀ o, ¬(s.Contains o ∧ t.Contains o)) ↔ s.last < t.start ∨ t.last < s.start := by
  have hs := s.start_le_last
  have ht := t.start_le_last
  constructor
  · intro h
    have hcommon := h (max s.start t.start)
    simp only [Contains] at hcommon
    omega
  · rintro h o ⟨hso, hto⟩
    simp only [Contains] at hso hto
    omega

end Span

@[simp] theorem wellNested_nil : WellNested [] :=
  .intro .nil (fun _ hn => absurd hn List.not_mem_nil) (fun _ hn => absurd hn List.not_mem_nil)

theorem wellNested_cons {n : Node} {ns : List Node} :
    WellNested (n :: ns) ↔
      (∀ m ∈ ns, ∀ o, ¬(n.span.Contains o ∧ m.span.Contains o)) ∧
      (∀ c ∈ n.children, n.span.Encloses c.span) ∧ WellNested n.children ∧ WellNested ns := by
  constructor
  · rintro ⟨apart, encloses, deeper⟩
    obtain ⟨hhead, htail⟩ := List.pairwise_cons.1 apart
    refine ⟨hhead, encloses n List.mem_cons_self, deeper n List.mem_cons_self, ?_⟩
    exact .intro htail (fun m hm => encloses m (List.mem_cons_of_mem n hm))
      (fun m hm => deeper m (List.mem_cons_of_mem n hm))
  · rintro ⟨hhead, henc, hbelow, apart, encloses, deeper⟩
    refine .intro (List.pairwise_cons.2 ⟨hhead, apart⟩) ?_ ?_
    · exact List.forall_mem_cons.2 ⟨henc, encloses⟩
    · exact List.forall_mem_cons.2 ⟨hbelow, deeper⟩

namespace WellNested

variable {n : Node} {ns : List Node}

private theorem head_apart (h : WellNested (n :: ns)) {m : Node} (hm : m ∈ ns) {o : Nat}
    (hn : n.span.Contains o) : ¬m.span.Contains o :=
  fun hmo => (wellNested_cons.1 h).1 m hm o ⟨hn, hmo⟩

private theorem head_encloses (h : WellNested (n :: ns)) {c : Node} (hc : c ∈ n.children) :
    n.span.Encloses c.span :=
  (wellNested_cons.1 h).2.1 c hc

private theorem children (h : WellNested (n :: ns)) : WellNested n.children := (wellNested_cons.1 h).2.2.1

private theorem tail (h : WellNested (n :: ns)) : WellNested ns := (wellNested_cons.1 h).2.2.2

end WellNested

private theorem WellNested.exists_root_encloses {forest : List Node} (h : WellNested forest)
    {above : List Nat} {i : Nat} {p : Occurrence} (hp : p ∈ occurrencesFrom above i forest) :
    ∃ n ∈ forest, n.span.Encloses p.node.span := by
  induction forest using forest_induction generalizing above i with
  | nil => simp at hp
  | cons n ns ihc ihs =>
    rw [occurrencesFrom_cons, List.mem_cons, List.mem_append] at hp
    rcases hp with rfl | hp | hp
    · exact ⟨n, List.mem_cons_self, Nat.le_refl _, Nat.le_refl _⟩
    · obtain ⟨c, hc, henc⟩ := ihc h.children hp
      exact ⟨n, List.mem_cons_self, (h.head_encloses hc).trans henc⟩
    · obtain ⟨m, hm, henc⟩ := ihs h.tail hp
      exact ⟨m, List.mem_cons_of_mem n hm, henc⟩

private theorem WellNested.encloses_below {n : Node} {ns : List Node} (h : WellNested (n :: ns))
    {above : List Nat} {i : Nat} {p : Occurrence}
    (hp : p ∈ occurrencesFrom above i n.children) : n.span.Encloses p.node.span := by
  obtain ⟨c, hc, henc⟩ := h.children.exists_root_encloses hp
  exact (h.head_encloses hc).trans henc

private theorem filter_eq_nil_of_forall {α : Type} {keep : α → Bool} {xs : List α}
    (h : ∀ x ∈ xs, keep x = false) : xs.filter keep = [] :=
  List.filter_eq_nil_iff.2 fun x hx => by rw [h x hx]; decide

/-- Pruning loses nothing that is looked for, when nothing looked for is skipped and whatever a
skipped node encloses is skipped, too. -/
theorem WellNested.filter_reachedFrom {skips keep : Node → Bool}
    (hdown : ∀ m n : Node, m.span.Encloses n.span → skips m = true → skips n = true)
    (hkeep : ∀ n, keep n = true → skips n = false) {forest : List Node} (h : WellNested forest)
    (above : List Nat) (i : Nat) :
    (reachedFrom skips above i forest).filter (fun p => keep p.node) =
      (occurrencesFrom above i forest).filter (fun p => keep p.node) := by
  induction forest using forest_induction generalizing above i with
  | nil => rw [reachedFrom, occurrencesFrom_nil]
  | cons n ns ihc ihs =>
    rw [occurrencesFrom_cons, List.filter_cons, List.filter_append]
    cases hskips : skips n with
    | true =>
      have hnone : ∀ m, skips m = true → keep m = false := by
        intro m hm
        cases hk : keep m with
        | false => rfl
        | true => rw [hkeep m hk] at hm; exact absurd hm Bool.false_ne_true
      have hbelow : (occurrencesFrom (above ++ [i]) 0 n.children).filter
          (fun p => keep p.node) = [] :=
        filter_eq_nil_of_forall fun p hp => hnone _ (hdown n _ (h.encloses_below hp) hskips)
      rw [reachedFrom_cons_of_skips hskips, hbelow, List.nil_append,
        if_neg (by rw [hnone n hskips]; decide)]
      exact ihs h.tail above (i + 1)
    | false =>
      rw [reachedFrom_cons_of_not_skips hskips, List.filter_cons, List.filter_append,
        ihc h.children (above ++ [i]) 0, ihs h.tail above (i + 1)]

/-- The occurrences whose span contains the offset lie on one path, the outer ones first, and each
encloses the later ones. -/
theorem WellNested.pairwise_contains {forest : List Node} (h : WellNested forest)
    (o : Nat) (above : List Nat) (i : Nat) :
    ((occurrencesFrom above i forest).filter
      (fun p => decide (p.node.span.Contains o))).Pairwise
        fun p q => p.IsAbove q ∧ p.node.span.Encloses q.node.span := by
  induction forest using forest_induction generalizing above i with
  | nil => rw [occurrencesFrom_nil]; exact .nil
  | cons n ns ihc ihs =>
    rw [occurrencesFrom_cons, List.filter_cons, List.filter_append]
    by_cases hn : n.span.Contains o
    · -- Siblings are apart from `n`, and what they enclose with them.
      have hlater : (occurrencesFrom above (i + 1) ns).filter
          (fun p => decide (p.node.span.Contains o)) = [] := by
        apply filter_eq_nil_of_forall
        intro p hp
        obtain ⟨m, hm, henc⟩ := h.tail.exists_root_encloses hp
        exact decide_eq_false fun hpo => h.head_apart hm hn (henc.contains hpo)
      rw [hlater, List.append_nil, if_pos (decide_eq_true hn), List.pairwise_cons]
      refine ⟨fun p hp => ?_, ihc h.children (above ++ [i]) 0⟩
      have hp := (List.mem_filter.1 hp).1
      exact ⟨isAbove_of_mem_occurrencesFrom hp n, h.encloses_below hp⟩
    · have hbelow : (occurrencesFrom (above ++ [i]) 0 n.children).filter
          (fun p => decide (p.node.span.Contains o)) = [] :=
        filter_eq_nil_of_forall fun p hp =>
          decide_eq_false fun hpo => hn ((h.encloses_below hp).contains hpo)
      rw [hbelow, List.nil_append, if_neg (by rw [decide_eq_true_iff]; exact hn)]
      exact ihs h.tail above (i + 1)

theorem WellNested.pairwise_of_contains {roots : List Node} (h : WellNested roots)
    (keep : Node → Bool) (o : Nat) (hkeep : ∀ n, keep n = true → n.span.Contains o) :
    ((occurrences roots).filter (fun p => keep p.node)).Pairwise
      fun p q => p.IsAbove q ∧ p.node.span.Encloses q.node.span := by
  have hpath := (h.pairwise_contains o [] 0).filter fun p => keep p.node
  rw [List.filter_filter] at hpath
  have hsame : ∀ p ∈ occurrences roots,
      (keep p.node && decide (p.node.span.Contains o)) = keep p.node := by
    intro p _
    cases hk : keep p.node with
    | false => rfl
    | true => exact decide_eq_true (hkeep p.node hk)
  rwa [← List.filter_congr hsame]

/-! ### An example

The forest of `f(g())`, both of whose calls contain the offsets from 2 to 4. -/

def innerCall : Node := ⟨.functionCall ⟨.identifier "g", ⟨2, 3⟩, []⟩ [], ⟨2, 5⟩, []⟩

def nestedCalls : List Node :=
  [⟨.functionCall ⟨.identifier "f", ⟨0, 1⟩, []⟩ [⟨.glue .argument, ⟨2, 5⟩, [innerCall]⟩], ⟨0, 6⟩, []⟩]

theorem wellNested_nestedCalls : WellNested nestedCalls := by
  simp only [nestedCalls, innerCall, wellNested_cons, Node.children, Kind.nodes, Span.apart_iff,
    List.append_nil, List.nil_append]
  simp [Span.Encloses, Span.last]

end CaretContext
