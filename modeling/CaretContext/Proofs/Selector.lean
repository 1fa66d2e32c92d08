import CaretContext.Proofs.Walk
import CaretContext.Query

/-!
# Selectors

A selector is the labels of a chain with dots between them. Everything in a chain is the label of some node,
and no label is empty or has a dot in it, so a selector can be taken apart again: it says as much as the
chain it was made from.
-/

namespace CaretContext

/-! ### Labels -/

/-- Whether a text can be told from its neighbours in a selector. -/
def IsSelectorPart (text : String) : Prop := text ≠ "" ∧ '.' ∉ text.toList

instance (text : String) : Decidable (IsSelectorPart text) := inferInstanceAs (Decidable (_ ∧ _))

private theorem Kind.isSelectorPart_label {ν : Type} (kind : Kind ν) : IsSelectorPart kind.label := by
  cases kind with
  | classLike form => rw [Kind.label]; cases form <;> decide +kernel
  | functionLike form => rw [Kind.label]; cases form <;> decide +kernel
  | controlFlow form => rw [Kind.label]; cases form <;> decide +kernel
  | statement form => rw [Kind.label]; cases form <;> decide +kernel
  | expression form => rw [Kind.label]; cases form <;> decide +kernel
  | glue form => rw [Kind.label]; cases form <;> decide +kernel
  | methodCall receiver operator member arguments => cases operator <;> rw [Kind.label] <;> decide +kernel
  | propertyAccess receiver operator member => cases operator <;> simp only [Kind.label] <;> decide +kernel
  | _ => rw [Kind.label]; decide +kernel

namespace ScopeChain

/-! ### Where labels come from -/

/-- Whether everything gathered is the label of one of the nodes. -/
def Gathered.IsFrom (gathered : Gathered) (nodes : List Node) : Prop :=
  ∀ label ∈ gathered.scopes ++ gathered.members, ∃ n ∈ nodes, n.label = label

private theorem isFrom_visit {gathered : Gathered} {nodes : List Node} {n : Node} (hn : n ∈ nodes)
    (h : gathered.IsFrom nodes) (offset : Nat) : (visit offset gathered n).1.IsFrom nodes := by
  simp only [Gathered.IsFrom, List.mem_append] at h ⊢
  unfold visit
  split
  · exact h
  · split
    · exact h
    · split
      · split <;> grind
      · grind

private theorem isFrom_walk (roots : List Node) (offset : Nat) :
    (walk (visit offset) ⟨[], []⟩ roots).IsFrom (nodesIn roots) := by
  apply walk_preserves (P := (Gathered.IsFrom · (nodesIn roots)))
  · intro n hn gathered h
    exact isFrom_visit hn h offset
  · simp [Gathered.IsFrom]

private theorem isSelectorPart_of_mem_resolve {roots : List Node} {offset : Nat} {label : String}
    (h : label ∈ (resolve roots offset).labels) : IsSelectorPart label := by
  obtain ⟨n, -, rfl⟩ := isFrom_walk roots offset label h
  exact n.kind.isSelectorPart_label

/-! ### Taking a selector apart -/

/-- The parts of a text between its dots. An empty text has none. -/
def selectorParts (text : String) : List String :=
  if text = "" then [] else (text.split '.').toList.map String.Slice.copy

variable {chain chain' : ScopeChain}

private theorem selector_eq_empty_iff (h : ∀ label ∈ chain.labels, IsSelectorPart label) :
    chain.selector = "" ↔ chain.labels = [] := by
  rw [selector]
  cases hlabels : chain.labels with
  | nil => simp
  | cons label labels =>
    have hpart := h label (by simp [hlabels])
    cases labels with
    | nil => simp [hpart.1]
    | cons => simp [String.intercalate_cons_cons]

private theorem selectorParts_selector (h : ∀ label ∈ chain.labels, IsSelectorPart label) :
    selectorParts chain.selector = chain.labels := by
  have hempty := selector_eq_empty_iff h
  rw [selectorParts]
  split
  · rename_i hnone
    exact (hempty.1 hnone).symm
  · rename_i hsome
    have hsplit := String.toList_split_intercalate fun label hlabel => (h label hlabel).2
    rw [if_neg fun hnil => hsome (hempty.2 hnil)] at hsplit
    exact hsplit

private theorem selector_inj (h : ∀ label ∈ chain.labels, IsSelectorPart label)
    (h' : ∀ label ∈ chain'.labels, IsSelectorPart label) :
    chain.selector = chain'.selector ↔ chain = chain' := by
  constructor
  · intro hselector
    have hlabels : chain.labels = chain'.labels := by
      rw [← selectorParts_selector h, ← selectorParts_selector h', hselector]
    cases chain
    cases chain'
    rw [ScopeChain.mk.injEq]
    exact hlabels
  · rintro rfl
    rfl

/-- The selector of a position can be taken apart into the labels of the chain there, and is empty only for
the empty chain. So two positions have the same selector exactly when they have the same chain. A query
answers with the selector of the very chain that it answers with when no selector is asked for. -/
theorem selector_of_position (roots : List Node) (offset : Nat) :
    selectorParts (resolve roots offset).selector = (resolve roots offset).labels ∧
    ((resolve roots offset).selector = "" ↔ (resolve roots offset).labels = []) ∧
    (∀ roots' offset', (resolve roots offset).selector = (resolve roots' offset').selector ↔
      resolve roots offset = resolve roots' offset') ∧
    ∀ (source : Source) (position : Nat) (countsChars skipComments : Bool), ∃ chain : ScopeChain,
      Query.run skipComments ⟨some .scopeChain, some (.ok source), some position, false, countsChars⟩ =
        .ok (.scopeChain chain) ∧
      Query.run skipComments ⟨some .scopeChain, some (.ok source), some position, true, countsChars⟩ =
        .ok (.selector (".".intercalate chain.labels)) ∧
      selectorParts (".".intercalate chain.labels) = chain.labels := by
  have hparts : ∀ label ∈ (resolve roots offset).labels, IsSelectorPart label :=
    fun label => isSelectorPart_of_mem_resolve
  refine ⟨selectorParts_selector hparts, selector_eq_empty_iff hparts, ?_, ?_⟩
  · intro roots' offset'
    exact selector_inj hparts fun label => isSelectorPart_of_mem_resolve
  · intro source position countsChars skipComments
    let caret := if countsChars then source.byteOffset position else position
    refine ⟨resolve (Php.parse source) caret, rfl, rfl, ?_⟩
    exact selectorParts_selector fun label => isSelectorPart_of_mem_resolve

end ScopeChain

end CaretContext
