import CaretContext.Proofs.PreOrder
import CaretContext.Proofs.ScopeLevels
import Mathlib.Data.List.Induction

/-!
# The statements behind a scope chain

Behind the scopes, a chain reports the plain statements met since the last scope-defining construct that
starts before the caret. Entering a scope forgets the statements so far, leaving one forgets nothing: a
plain statement that ends a closed body is still reported behind that body, until the next scope-defining
construct is entered.
-/

namespace CaretContext

namespace ScopeChain

def isPlainStatement (n : Node) : Bool :=
  match n.kind with
  | .statement _ => true
  | _ => false

theorem isScopeDefining_eq_false_of_isPlainStatement {n : Node} (h : isPlainStatement n = true) :
    n.kind.isScopeDefining = false := by
  unfold isPlainStatement at h
  split at h
  · rename_i hkind
    rw [hkind]
    rfl
  · exact absurd h Bool.false_ne_true

private theorem gather_members (offset : Nat) (gathered : Gathered) (n : Node) :
    (gather offset gathered n).members =
      if n.kind.isScopeDefining then []
      else gathered.members ++ if isPlainStatement n then [n.label] else [] := by
  unfold gather isPlainStatement
  cases n.kind with
  | classLike form => cases form <;> simp [Kind.category, ClassLike.category, Kind.isScopeDefining]
  | functionLike form =>
    cases form <;> simp [Kind.category, FunctionLike.category, Kind.isScopeDefining]
  | _ => simp [Kind.category, Kind.isScopeDefining]

/-- The plain statements of a list with no scope-defining construct behind them. -/
def latestStatements (ps : List Occurrence) : List Occurrence :=
  ps.filter fun p => isPlainStatement p.node &&
    ps.all fun q => !q.node.kind.isScopeDefining || decide (q.path < p.path)

private theorem mem_latestStatements {ps : List Occurrence} {p : Occurrence} :
    p ∈ latestStatements ps ↔ p ∈ ps ∧ isPlainStatement p.node = true ∧
      ∀ q ∈ ps, q.node.kind.isScopeDefining = true → q.path < p.path := by
  simp only [latestStatements, List.mem_filter, Bool.and_eq_true, List.all_eq_true, Bool.or_eq_true,
    Bool.not_eq_true', decide_eq_true_eq]
  have himp : ∀ q : Occurrence, (q.node.kind.isScopeDefining = false ∨ q.path < p.path) ↔
      (q.node.kind.isScopeDefining = true → q.path < p.path) := by
    intro q
    cases q.node.kind.isScopeDefining <;> simp
  simp only [himp]

/-- A scope-defining construct leaves none of the statements before it, anything else leaves all. -/
theorem latestStatements_concat {ps : List Occurrence} {p : Occurrence}
    (hsorted : (ps ++ [p]).Pairwise fun p q => p.path < q.path) :
    latestStatements (ps ++ [p]) =
      if p.node.kind.isScopeDefining then []
      else latestStatements ps ++ if isPlainStatement p.node then [p] else [] := by
  have hbefore : ∀ q ∈ ps, q.path < p.path := by
    intro q hq
    exact (List.pairwise_append.1 hsorted).2.2 q hq p List.mem_cons_self
  cases hscope : p.node.kind.isScopeDefining with
  | true =>
    rw [if_pos rfl, List.eq_nil_iff_forall_not_mem]
    intro q hq
    obtain ⟨hmem, -, hlast⟩ := mem_latestStatements.1 hq
    -- A statement left over would have to stand behind `p`, which is last.
    have hlt := hlast p (by simp) hscope
    rcases List.mem_append.1 hmem with hmem | hmem
    · exact List.lt_asymm hlt (hbefore q hmem)
    · rw [List.mem_singleton.1 hmem] at hlt
      exact List.lt_irrefl _ hlt
  | false =>
    have hall : ps.all (fun q => !q.node.kind.isScopeDefining || decide (q.path < p.path)) = true := by
      rw [List.all_eq_true]
      intro q hq
      simp [hbefore q hq]
    simp [latestStatements, List.filter_append, List.filter_cons, hscope, hall]

private theorem foldl_gather_members {offset : Nat} {ps : List Occurrence}
    (hsorted : ps.Pairwise fun p q => p.path < q.path) :
    (ps.foldl (fun gathered p => gather offset gathered p.node) ⟨[], []⟩).members =
      (latestStatements ps).map (·.node.label) := by
  induction ps using List.reverseRecOn with
  | nil => rfl
  | append_singleton ps p ih =>
    have hps := (List.pairwise_append.1 hsorted).1
    rw [List.foldl_append, List.foldl_cons, List.foldl_nil, gather_members, ih hps,
      latestStatements_concat hsorted]
    cases p.node.kind.isScopeDefining with
    | true => rfl
    | false => cases isPlainStatement p.node <;> simp

/-- Whether the occurrence is a scope-defining construct that starts before the caret. -/
structure IsEntered (roots : List Node) (offset : Nat) (p : Occurrence) : Prop where
  occurs : nodeAt? roots p.path = some p.node
  scope : p.node.kind.isScopeDefining = true
  start : p.node.span.start < offset

def scopesAround (roots : List Node) (offset : Nat) : List Occurrence :=
  (occurrences roots).filter fun p => isScopeAround offset p.node

/-- The plain statements that start before the caret and that no entered scope stands behind. -/
def trailing (roots : List Node) (offset : Nat) : List Occurrence :=
  latestStatements ((occurrences roots).filter fun p => decide (p.node.span.start < offset))

def entries (roots : List Node) (offset : Nat) : List Occurrence :=
  scopesAround roots offset ++ trailing roots offset

section Entries

variable {roots : List Node} {offset : Nat} {p : Occurrence}

private theorem mem_scopesAround :
    p ∈ scopesAround roots offset ↔ IsEntered roots offset p ∧ offset ≤ p.node.span.last := by
  rw [scopesAround, List.mem_filter, mem_occurrences, isScopeAround_iff]
  constructor
  · rintro ⟨hp, hscope, hstart, hlast⟩
    exact ⟨⟨hp, hscope, hstart⟩, hlast⟩
  · rintro ⟨⟨hp, hscope, hstart⟩, hlast⟩
    exact ⟨hp, hscope, hstart, hlast⟩

theorem mem_trailing :
    p ∈ trailing roots offset ↔ nodeAt? roots p.path = some p.node ∧
      isPlainStatement p.node = true ∧ p.node.span.start < offset ∧
      ∀ q, IsEntered roots offset q → q.path < p.path := by
  simp only [trailing, mem_latestStatements, List.mem_filter, mem_occurrences, decide_eq_true_eq]
  constructor
  · rintro ⟨⟨hp, hstart⟩, hplain, hlast⟩
    exact ⟨hp, hplain, hstart, fun q hq => hlast q ⟨hq.occurs, hq.start⟩ hq.scope⟩
  · rintro ⟨hp, hplain, hstart, hlast⟩
    exact ⟨⟨hp, hstart⟩, hplain, fun q hq hscope => hlast q ⟨hq.1, hscope, hq.2⟩⟩

private theorem pairwise_trailing (roots : List Node) (offset : Nat) :
    (trailing roots offset).Pairwise fun p q => p.path < q.path :=
  ((pairwise_occurrencesFrom [] 0 roots).filter _).filter _

/-- The walk comes to all that starts before the caret, since no construct has children in front of
itself. -/
theorem reached_eq_filter (h : WellNested roots) (offset : Nat) :
    reached (fun n => Pruning.startsAtOrAfter.skips n.span offset) roots =
      (occurrences roots).filter fun p => decide (p.node.span.start < offset) := by
  have hkeep : ∀ n : Node, decide (n.span.start < offset) = true →
      Pruning.startsAtOrAfter.skips n.span offset = false := by
    intro n hn
    simpa [Pruning.skips] using hn
  have hall := h.filter_reachedFrom (fun m n => startsAtOrAfter_skips_of_encloses offset) hkeep [] 0
  rw [List.filter_eq_self.2] at hall
  · exact hall
  · intro p hp
    simpa [Pruning.skips] using not_skips_of_mem_reachedFrom hp

private theorem walk_members_eq (h : WellNested roots) (offset : Nat) :
    (walk (visit offset) ⟨[], []⟩ roots).members = (trailing roots offset).map (·.node.label) := by
  rw [walk_eq_foldl_reached (visit_eq offset), reached_eq_filter h]
  exact foldl_gather_members ((pairwise_occurrencesFrom [] 0 roots).filter _)

theorem resolve_eq (h : WellNested roots) (offset : Nat) :
    resolve roots offset = ⟨(entries roots offset).map (·.node.label)⟩ := by
  rw [resolve, walk_scopes_eq h, walk_members_eq h, entries, List.map_append, scopesAround]

end Entries

/-- Whether `a` is the scope-defining construct next around `p`: the others above `p` are above `a`. -/
def IsNearestScope (roots : List Node) (a p : Occurrence) : Prop :=
  nodeAt? roots a.path = some a.node ∧ a.node.kind.isScopeDefining = true ∧ a.IsAbove p ∧
    ∀ b : Occurrence, nodeAt? roots b.path = some b.node → b.node.kind.isScopeDefining = true →
      b.IsAbove p → b.path <+: a.path

section Nearest

variable {roots : List Node} {offset : Nat} {a p q : Occurrence}

private theorem IsNearestScope.encloses (h : WellNested roots) (ha : IsNearestScope roots a p)
    (hp : nodeAt? roots p.path = some p.node) : a.node.span.Encloses p.node.span :=
  h.encloses_of_isPrefix ha.1 hp ha.2.2.1.1

private theorem IsNearestScope.isEntered (h : WellNested roots) (ha : IsNearestScope roots a p)
    (hp : nodeAt? roots p.path = some p.node) (hstart : p.node.span.start < offset) :
    IsEntered roots offset a :=
  ⟨ha.1, ha.2.1, Nat.lt_of_le_of_lt (ha.encloses h hp).1 hstart⟩

/-- What was entered between a closed scope and a statement in it is closed with it. -/
theorem IsNearestScope.closed_since (h : WellNested roots) (ha : IsNearestScope roots a p)
    (hclosed : a.node.span.last < offset) (hq : IsEntered roots offset q) (hsince : ¬ q.path < a.path)
    (hqp : q.path < p.path) : q.node.span.last < offset := by
  have hbelow : a.path <+: q.path := isPrefix_of_between ha.2.2.1.1 hsince hqp
  exact Nat.lt_of_le_of_lt (h.encloses_of_isPrefix ha.1 hq.occurs hbelow).2 hclosed

private theorem IsNearestScope.around_or_closed (h : WellNested roots) (ha : IsNearestScope roots a p)
    (hp : p ∈ trailing roots offset) :
    a ∈ scopesAround roots offset ∨ a.node.span.last < offset := by
  obtain ⟨hat, -, hstart, -⟩ := mem_trailing.1 hp
  have hentered := ha.isEntered h hat hstart
  by_cases hclosed : a.node.span.last < offset
  · exact .inr hclosed
  · exact .inl (mem_scopesAround.2 ⟨hentered, by omega⟩)

/-- A plain statement of a closed scope is reported unless a scope was entered behind it. -/
theorem IsNearestScope.mem_trailing_of_closed (h : WellNested roots) (ha : IsNearestScope roots a p)
    (hp : nodeAt? roots p.path = some p.node) (hplain : isPlainStatement p.node = true)
    (hclosed : a.node.span.last < offset)
    (hlast : ∀ q, IsEntered roots offset q → ¬ p.path < q.path) : p ∈ trailing roots offset := by
  have hencloses := ha.encloses h hp
  have hstart : p.node.span.start < offset := by
    have hle := p.node.span.start_le_last
    have hinside := hencloses.2
    omega
  refine mem_trailing.2 ⟨hp, hplain, hstart, ?_⟩
  intro q hq
  rcases Std.lt_trichotomy q.path p.path with hlt | heq | hgt
  · exact hlt
  · -- A scope-defining construct is no plain statement.
    have hsame : q.node = p.node := Option.some.inj (by rw [← hq.occurs, ← hp, heq])
    have hscope := hq.scope
    rw [hsame, isScopeDefining_eq_false_of_isPlainStatement hplain] at hscope
    exact absurd hscope Bool.false_ne_true
  · exact absurd hgt (hlast q hq)

end Nearest

/-- In a well nested forest a chain reports, behind the scopes around the caret, the plain statements
that start before it and that no entered scope stands behind. The scope next around such a statement is
around the caret, or it is closed, and then all entered since is closed with it. So the statements are
those of scopes around the caret exactly when another scope was entered behind every plain statement of
a closed one. -/
theorem trailing_of_wellNested {roots : List Node} (h : WellNested roots) (offset : Nat) :
    resolve roots offset =
      ⟨(scopesAround roots offset ++ trailing roots offset).map (·.node.label)⟩ ∧
    (∀ p, p ∈ scopesAround roots offset ↔ IsEntered roots offset p ∧ offset ≤ p.node.span.last) ∧
    (∀ p, p ∈ trailing roots offset ↔ nodeAt? roots p.path = some p.node ∧
      isPlainStatement p.node = true ∧ p.node.span.start < offset ∧
      ∀ q, IsEntered roots offset q → q.path < p.path) ∧
    (trailing roots offset).Pairwise (fun p q => p.path < q.path) ∧
    (∀ p ∈ trailing roots offset, ∀ a, IsNearestScope roots a p →
      a ∈ scopesAround roots offset ∨ a.node.span.last < offset ∧
        ∀ q, IsEntered roots offset q → ¬ q.path < a.path → q.node.span.last < offset) ∧
    ((∀ p ∈ trailing roots offset, ∀ a, IsNearestScope roots a p → a ∈ scopesAround roots offset) ↔
      ∀ p a, nodeAt? roots p.path = some p.node → isPlainStatement p.node = true →
        IsNearestScope roots a p → a.node.span.last < offset →
          ∃ q, IsEntered roots offset q ∧ p.path < q.path) := by
  refine ⟨resolve_eq h offset, fun p => mem_scopesAround, fun p => mem_trailing,
    pairwise_trailing roots offset, ?_, ?_⟩
  · intro p hp a ha
    have hlast := (mem_trailing.1 hp).2.2.2
    rcases ha.around_or_closed h hp with haround | hclosed
    · exact .inl haround
    · exact .inr ⟨hclosed, fun q hq hsince => ha.closed_since h hclosed hq hsince (hlast q hq)⟩
  · constructor
    · intro hlevel p a hp hplain ha hclosed
      by_contra hnone
      have hlast : ∀ q, IsEntered roots offset q → ¬ p.path < q.path :=
        fun q hq hlt => hnone ⟨q, hq, hlt⟩
      have hreported := ha.mem_trailing_of_closed h hp hplain hclosed hlast
      have haround := (mem_scopesAround.1 (hlevel p hreported a ha)).2
      omega
    · intro hfollowed p hp a ha
      obtain ⟨hat, hplain, -, hlast⟩ := mem_trailing.1 hp
      rcases ha.around_or_closed h hp with haround | hclosed
      · exact haround
      · obtain ⟨q, hq, hlt⟩ := hfollowed p a hat hplain ha hclosed
        exact absurd (hlast q hq) (List.lt_asymm hlt)

def bareReturn : Node := ⟨.statement .returnValue, ⟨25, 32⟩, []⟩

/-- The function of `<?php function f() { return; }`, spread over some lines. -/
def returningFunction : Node := ⟨.functionLike .functionDeclaration, ⟨6, 34⟩, [bareReturn]⟩

private theorem wellNested_returningFunction : WellNested [returningFunction] := by
  simp [returningFunction, bareReturn, wellNested_cons, Node.children, Kind.nodes, Span.Encloses,
    Span.last]

private theorem mem_occurrences_returningFunction {p : Occurrence}
    (h : nodeAt? [returningFunction] p.path = some p.node) :
    p = ⟨[0], returningFunction⟩ ∨ p = ⟨[0, 0], bareReturn⟩ := by
  have hp := mem_occurrences.2 h
  simpa [occurrences, occurrencesFrom_cons, returningFunction, bareReturn, Node.children,
    Kind.nodes] using hp

private theorem isNearestScope_returningFunction :
    IsNearestScope [returningFunction] ⟨[0], returningFunction⟩ ⟨[0, 0], bareReturn⟩ := by
  refine ⟨rfl, rfl, ⟨⟨[0], rfl⟩, by decide⟩, ?_⟩
  intro b hb _ habove
  rcases mem_occurrences_returningFunction hb with rfl | rfl
  · exact List.prefix_refl _
  · exact absurd rfl habove.2

/-- Behind the function its last statement is still reported. -/
theorem trailing_returningFunction :
    WellNested [returningFunction] ∧
    IsNearestScope [returningFunction] ⟨[0], returningFunction⟩ ⟨[0, 0], bareReturn⟩ ∧
    returningFunction.span.last < 35 ∧ "Return" ∈ (resolve [returningFunction] 35).labels := by
  obtain ⟨hresolve, -, htrailing, -⟩ := trailing_of_wellNested wellNested_returningFunction 35
  refine ⟨wellNested_returningFunction, isNearestScope_returningFunction, by decide, ?_⟩
  have hreported : ⟨[0, 0], bareReturn⟩ ∈ trailing [returningFunction] 35 := by
    refine (htrailing _).2 ⟨rfl, rfl, by decide, ?_⟩
    intro q hq
    rcases mem_occurrences_returningFunction hq.occurs with rfl | rfl
    · decide
    · exact absurd hq.scope (by decide)
  rw [hresolve]
  exact List.mem_map.2 ⟨_, List.mem_append_right _ hreported, rfl⟩

end ScopeChain

end CaretContext
