import CaretContext.Proofs.Nesting

/-!
# Pre-order by paths

A walk meets the occurrences of a forest in the order of their paths, compared as words. What lies below
an occurrence is met in one stretch behind it, and in a well nested forest inside its span.
-/

namespace CaretContext

theorem pairwise_occurrencesFrom (above : List Nat) (i : Nat) (forest : List Node) :
    (occurrencesFrom above i forest).Pairwise fun p q => p.path < q.path := by
  induction forest using forest_induction generalizing above i with
  | nil => simp
  | cons n ns ihc ihs =>
    rw [occurrencesFrom_cons, List.pairwise_cons, List.pairwise_append]
    refine ⟨?_, ihc (above ++ [i]) 0, ihs above (i + 1), ?_⟩
    · intro p hp
      rcases List.mem_append.1 hp with hp | hp
      · obtain ⟨j, path, hpath, -⟩ := mem_occurrencesFrom.1 hp
        have hlt : above ++ [i] ++ [] < above ++ [i] ++ (0 + j) :: path :=
          List.append_left_lt (List.nil_lt_cons _ _)
        simpa [hpath] using hlt
      · obtain ⟨j, path, hpath, -⟩ := mem_occurrencesFrom.1 hp
        rw [hpath]
        exact List.append_left_lt (List.cons_lt_cons_iff.2 (.inl (by omega)))
    · intro p hp q hq
      obtain ⟨j, path, hpath, -⟩ := mem_occurrencesFrom.1 hp
      obtain ⟨k, path', hpath', -⟩ := mem_occurrencesFrom.1 hq
      rw [hpath, hpath', List.append_assoc]
      exact List.append_left_lt (List.cons_lt_cons_iff.2 (.inl (by omega)))

/-- What comes between a path and one that goes on from it goes on from it, too. -/
theorem isPrefix_of_between {as bs cs : List Nat} (hcs : as <+: cs) (hfrom : ¬ bs < as)
    (hto : bs < cs) : as <+: bs := by
  induction as generalizing bs cs with
  | nil => exact List.nil_prefix
  | cons a as ih =>
    obtain ⟨rest, rfl⟩ := hcs
    cases bs with
    | nil => exact absurd (List.nil_lt_cons a as) hfrom
    | cons b bs =>
      rw [List.cons_append, List.cons_lt_cons_iff] at hto
      rw [List.cons_lt_cons_iff, not_or] at hfrom
      rcases hto with hlt | ⟨rfl, hto⟩
      · exact absurd hlt hfrom.1
      · have hrest := ih (List.prefix_append as rest) (fun hlt => hfrom.2 ⟨rfl, hlt⟩) hto
        exact (List.prefix_cons_inj b).2 hrest

private theorem Node.at?_append (n : Node) (path path' : List Nat) :
    n.at? (path ++ path') = (n.at? path).bind (Node.at? · path') := by
  induction path generalizing n with
  | nil => rfl
  | cons i path ih =>
    rw [List.cons_append, Node.at?, Node.at?]
    cases n.children[i]? with
    | none => rfl
    | some c => exact ih c

private theorem WellNested.encloses_at? {n m : Node} {ns : List Node} {path : List Nat}
    (h : WellNested ns) (hn : n ∈ ns) (hm : n.at? path = some m) : n.span.Encloses m.span := by
  induction path generalizing n ns with
  | nil =>
    obtain rfl : n = m := Option.some.inj hm
    exact ⟨Nat.le_refl _, Nat.le_refl _⟩
  | cons i path ih =>
    obtain ⟨c, hc, hm⟩ := Option.bind_eq_some_iff.1 hm
    have hc := List.mem_of_getElem? hc
    obtain ⟨-, hencloses, hdeeper⟩ := h
    exact (hencloses n hn c hc).trans (ih (hdeeper n hn) hc hm)

private theorem WellNested.encloses_of_at? {n m m' : Node} {ns : List Node} {path path' : List Nat}
    (h : WellNested ns) (hn : n ∈ ns) (hm : n.at? path = some m) (hm' : m.at? path' = some m') :
    m.span.Encloses m'.span := by
  induction path generalizing n ns with
  | nil =>
    obtain rfl : n = m := Option.some.inj hm
    exact h.encloses_at? hn hm'
  | cons i path ih =>
    obtain ⟨c, hc, hm⟩ := Option.bind_eq_some_iff.1 hm
    obtain ⟨-, -, hdeeper⟩ := h
    exact ih (hdeeper n hn) (List.mem_of_getElem? hc) hm

/-- In a well nested forest an occurrence encloses what lies below it. -/
theorem WellNested.encloses_of_isPrefix {roots : List Node} (h : WellNested roots) {p q : Occurrence}
    (hp : nodeAt? roots p.path = some p.node) (hq : nodeAt? roots q.path = some q.node)
    (hpq : p.path <+: q.path) : p.node.span.Encloses q.node.span := by
  obtain ⟨rest, hrest⟩ := hpq
  rw [← hrest] at hq
  cases hpath : p.path with
  | nil => rw [hpath] at hp; exact absurd hp (Option.some_ne_none _).symm
  | cons i path =>
    rw [hpath] at hp
    rw [hpath, List.cons_append] at hq
    obtain ⟨n, hn, hp⟩ := Option.bind_eq_some_iff.1 hp
    obtain ⟨n', hn', hq⟩ := Option.bind_eq_some_iff.1 hq
    obtain rfl : n = n' := Option.some.inj (hn.symm.trans hn')
    rw [Node.at?_append, hp, Option.bind_some] at hq
    exact h.encloses_of_at? (List.mem_of_getElem? hn) hp hq

end CaretContext
