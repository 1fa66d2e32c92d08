import CaretContext.Proofs.Occurrence
import CaretContext.Proofs.Php.MissingEnd

/-!
# How nodes are laid out over the text

A row is a list of sibling nodes with all that is below them. Its nodes have spans that can be cut
out of the text, hold their children, and start one after the other. Siblings do not overlap, but for
two cases: a statement whose end is missing runs over one token of the next statement, and so does a
part of a string over the next part.
-/

namespace CaretContext.Php

/-- Whether every token that ends before `a` ends by `b`. -/
def Clear (source : Source) (a b : Nat) : Prop :=
  ∀ t ∈ tokensOf source, t.span.stop < a → t.span.stop ≤ b

/-- Which siblings may share a token. -/
inductive Looseness where
  | strict
  | statements
  | parts
deriving DecidableEq

def Looseness.Allows : Looseness → Node → Node → Prop
  | strict, _, _ => False
  | statements, a, b => a.kind.category = .statement ∧ b.kind.category = .statement
  | parts, _, _ => True

/-- How loose the children of a node are: those of strings and of whatever holds statements. -/
def looseness : Kind Node → Looseness
  | .expression .interpolatedString => .parts
  | .expression .shellExecute => .parts
  | .classLike _ => .statements
  | .functionLike _ => .statements
  | .controlFlow _ => .statements
  | .statement _ => .statements
  | _ => .strict

def AreStatements (ns : List Node) : Prop := ∀ n ∈ ns, n.kind.category = .statement

/-- How a sibling stands to a later one: it starts no later, shares at most one token with it, and that only
where it is allowed to and lacks its own end. -/
structure Precedes (source : Source) (loose : Looseness) (a b : Node) : Prop where
  starts : a.span.start ≤ b.span.start
  clear : Clear source a.span.stop b.span.start
  apart : a.span.stop ≤ b.span.start ∨ loose.Allows a b ∧ Overruns source a

/-- How a node stands to the text and to its children. -/
structure LaidOut (source : Source) (n : Node) : Prop where
  start_le_stop : n.span.start ≤ n.span.stop
  start : IsBoundary source n.span.start
  stop : IsBoundary source n.span.stop
  inside : ∀ c ∈ n.children, n.span.start ≤ c.span.start ∧ c.span.stop ≤ n.span.stop
  siblings : n.children.Pairwise (Precedes source (looseness n.kind))

/-- Whether the operator and the member in braces follow the receiver as two tokens. A receiver that
lacks its end has run over the operator. -/
def Follows (source : Source) (receiver : Span) (operator : AccessOperator) (member : String) : Prop :=
  ∃ taken op brace rest stop, tokensOf source = taken ++ op :: brace :: rest ∧
    op.kind = .symbol operator.text ∧ brace.kind = .symbol "\x7b" ∧
    (receiver.stop = lastStop taken ∨ receiver.stop = op.span.stop) ∧
    brace.span.stop ≤ stop ∧ source.text? ⟨brace.span.start, stop⟩ = some member

/-- Whether the text bears out what the node says of it. -/
def IsBacked (source : Source) : Kind Node → Prop
  | .methodCall receiver operator (.expression text _) _ => Follows source receiver.span operator text
  | _ => True

/-- Nodes in a row that start from `lo` to `hi` and end by `stop`. Those that end behind `hi` lack their own
end. -/
structure Row (source : Source) (loose : Looseness) (lo : Nat) (ns : List Node) (hi stop : Nat) :
    Prop where
  lo_le_hi : lo ≤ hi
  hi_le_stop : hi ≤ stop
  laidOut : ∀ n ∈ nodesIn ns, LaidOut source n
  backed : ∀ n ∈ nodesIn ns, IsBacked source n.kind
  sorted : (nodesIn ns).Pairwise fun a b => a.span.start ≤ b.span.start
  starts : ∀ n ∈ nodesIn ns, lo ≤ n.span.start ∧ n.span.start ≤ hi
  stops : ∀ n ∈ ns, n.span.stop ≤ stop
  ends : ∀ n ∈ nodesIn ns, EndsBy source n hi
  siblings : ns.Pairwise (Precedes source loose)

private theorem Clear.of_le {source : Source} {a b : Nat} (h : a ≤ b) : Clear source a b :=
  fun _ _ hlt => by omega

theorem Clear.mono {source : Source} {a a' b b' : Nat} (h : Clear source a b) (ha : a' ≤ a)
    (hb : b ≤ b') : Clear source a' b' := by
  intro t ht hlt
  have hle := h t ht (by omega)
  omega

private theorem stop_le_of_mem_nodesIn {source : Source} {ns : List Node} {stop : Nat}
    (hlaid : ∀ n ∈ nodesIn ns, LaidOut source n) (hstop : ∀ n ∈ ns, n.span.stop ≤ stop) :
    ∀ n ∈ nodesIn ns, n.span.stop ≤ stop := by
  induction ns using forest_induction with
  | nil => simp
  | cons n ns ihc ihs =>
    simp only [nodesIn_cons, List.forall_mem_cons, List.forall_mem_append] at hlaid hstop ⊢
    obtain ⟨hself, hbelow, hbeside⟩ := hlaid
    have hinside : ∀ c ∈ n.children, c.span.stop ≤ stop :=
      fun c hc => Nat.le_trans (hself.inside c hc).2 hstop.1
    exact ⟨hstop.1, ihc hbelow hinside, ihs hbeside hstop.2⟩

namespace Row

variable {source : Source} {loose : Looseness} {as bs : List Node} {lo hi stop lo' hi' stop' : Nat}

theorem nil (hlo : lo ≤ hi) (hhi : hi ≤ stop) : Row source loose lo [] hi stop where
  lo_le_hi := hlo
  hi_le_stop := hhi
  laidOut := by simp
  backed := by simp
  sorted := by simp
  starts := by simp
  stops := by simp
  ends := by simp
  siblings := .nil

theorem weaken (h : Row source loose lo as hi stop) (hlo : lo' ≤ lo) (hhi : hi ≤ hi')
    (hstop : stop ≤ stop') (hle : hi' ≤ stop') : Row source loose lo' as hi' stop' where
  lo_le_hi := by have := h.lo_le_hi; omega
  hi_le_stop := hle
  laidOut := h.laidOut
  backed := h.backed
  sorted := h.sorted
  starts n hn := by have := h.starts n hn; omega
  stops n hn := Nat.le_trans (h.stops n hn) hstop
  ends n hn := (h.ends n hn).mono hhi
  siblings := h.siblings

theorem loosen (h : Row source .strict lo as hi stop) : Row source loose lo as hi stop :=
  { h with siblings := h.siblings.imp fun p => ⟨p.starts, p.clear, p.apart.imp_right (·.1.elim)⟩ }

/-- Two rows make one where the first shares at most a token with the second, and even that only if it
is allowed to. -/
theorem append_of_clear (h : Row source loose lo as hi stop) (h' : Row source loose lo' bs hi' stop')
    (hhi : hi ≤ lo') (hstop : stop ≤ stop') (hclear : Clear source stop lo')
    (hapart : stop ≤ lo' ∨ ∀ a ∈ as, ∀ b ∈ bs, loose.Allows a b) :
    Row source loose lo (as ++ bs) hi' stop' where
  lo_le_hi := by have := h.lo_le_hi; have := h'.lo_le_hi; omega
  hi_le_stop := h'.hi_le_stop
  laidOut n hn := by
    rw [nodesIn_append, List.mem_append] at hn
    exact hn.elim (h.laidOut n) (h'.laidOut n)
  backed n hn := by
    rw [nodesIn_append, List.mem_append] at hn
    exact hn.elim (h.backed n) (h'.backed n)
  sorted := by
    rw [nodesIn_append, List.pairwise_append]
    refine ⟨h.sorted, h'.sorted, fun a ha b hb => ?_⟩
    have hstart := h.starts a ha
    have hstart' := h'.starts b hb
    omega
  starts n hn := by
    have hle := h.lo_le_hi
    have hle' := h'.lo_le_hi
    rw [nodesIn_append, List.mem_append] at hn
    rcases hn with hn | hn
    · have := h.starts n hn
      omega
    · have := h'.starts n hn
      omega
  stops n hn := by
    rw [List.mem_append] at hn
    rcases hn with hn | hn
    · exact Nat.le_trans (h.stops n hn) hstop
    · exact h'.stops n hn
  ends n hn := by
    have hle := h'.lo_le_hi
    rw [nodesIn_append, List.mem_append] at hn
    rcases hn with hn | hn
    · exact (h.ends n hn).mono (by omega)
    · exact h'.ends n hn
  siblings := by
    rw [List.pairwise_append]
    refine ⟨h.siblings, h'.siblings, fun a ha b hb => ?_⟩
    have hstart := h.starts a (mem_nodesIn_of_mem ha)
    have hstart' := h'.starts b (mem_nodesIn_of_mem hb)
    have hend := h.stops a ha
    refine ⟨by omega, hclear.mono hend hstart'.1, ?_⟩
    rcases hapart with hle | hallows
    · exact .inl (by omega)
    · exact (h.ends a (mem_nodesIn_of_mem ha)).imp (fun hle => by omega) fun hover =>
        ⟨hallows a ha b hb, hover⟩

theorem append (h : Row source loose lo as hi stop) (h' : Row source loose lo' bs hi' stop')
    (hle : stop ≤ lo') : Row source loose lo (as ++ bs) hi' stop' := by
  have hhi := h.hi_le_stop
  have hlo := h'.lo_le_hi
  have hhi' := h'.hi_le_stop
  exact h.append_of_clear h' (by omega) (by omega) (.of_le hle) (.inl hle)

/-- A node over the row of its children, which ends by the time the node does. Unless it ends with what has
been read, it lacks its end. -/
theorem node {kind : Kind Node} {span : Span} {rest : List Node}
    (h : Row source (looseness kind) lo' (kind.nodes ++ rest) hi stop) (hbacked : IsBacked source kind)
    (hlo : lo ≤ span.start) (hstart : span.start ≤ lo') (hstop : stop ≤ span.stop)
    (hb : IsBoundary source span.start) (hb' : IsBoundary source span.stop)
    (hends : EndsBy source ⟨kind, span, rest⟩ hi) :
    Row source loose lo [⟨kind, span, rest⟩] hi span.stop := by
  have hle := h.lo_le_hi
  have hle' := h.hi_le_stop
  have hnodes : nodesIn [⟨kind, span, rest⟩] = ⟨kind, span, rest⟩ :: nodesIn (kind.nodes ++ rest) := by
    simp [Node.children]
  have hself : LaidOut source ⟨kind, span, rest⟩ := {
    start_le_stop := by dsimp only; omega
    start := hb
    stop := hb'
    inside := by
      intro c hc
      have hchild := h.starts c (mem_nodesIn_of_mem hc)
      have hend := h.stops c hc
      dsimp only
      omega
    siblings := h.siblings }
  refine ⟨by omega, by omega, ?_, ?_, ?_, ?_, by simp, ?_, by simp⟩
  · rw [hnodes]
    exact List.forall_mem_cons.2 ⟨hself, h.laidOut⟩
  · rw [hnodes]
    exact List.forall_mem_cons.2 ⟨hbacked, h.backed⟩
  · rw [hnodes, List.pairwise_cons]
    refine ⟨fun c hc => ?_, h.sorted⟩
    exact Nat.le_trans hstart (h.starts c hc).1
  · rw [hnodes]
    refine List.forall_mem_cons.2 ⟨⟨hlo, by dsimp only; omega⟩, fun c hc => ?_⟩
    have hchild := h.starts c hc
    omega
  · rw [hnodes]
    exact List.forall_mem_cons.2 ⟨hends, h.ends⟩

section Single

variable {n : Node}

theorem from_start (h : Row source loose lo [n] hi stop) : Row source loose n.span.start [n] hi stop := by
  have hn : n ∈ nodesIn [n] := by simp
  refine { h with lo_le_hi := (h.starts n hn).2, starts := fun m hm => ⟨?_, (h.starts m hm).2⟩ }
  have hsorted := h.sorted
  simp only [nodesIn_cons, nodesIn_nil, List.append_nil, List.pairwise_cons, List.mem_cons] at hsorted hm
  rcases hm with rfl | hm
  · exact Nat.le_refl _
  · exact hsorted.1 m hm

theorem wrap {kind : Kind Node} (h : Row source loose lo [n] hi stop) (hkind : kind.nodes = [])
    (hbacked : IsBacked source kind) : Row source loose lo [⟨kind, n.span, [n]⟩] hi stop := by
  have hn : n ∈ nodesIn [n] := by simp
  have hlaid := h.laidOut n hn
  have hnodes : nodesIn [⟨kind, n.span, [n]⟩] = ⟨kind, n.span, [n]⟩ :: nodesIn [n] := by
    simp [Node.children, hkind]
  have hself : LaidOut source ⟨kind, n.span, [n]⟩ := {
    start_le_stop := hlaid.start_le_stop
    start := hlaid.start
    stop := hlaid.stop
    inside := by simp [Node.children, hkind]
    siblings := by simp [Node.children, hkind] }
  refine ⟨h.lo_le_hi, h.hi_le_stop, ?_, ?_, ?_, ?_, ?_, ?_, by simp⟩
  · rw [hnodes]
    exact List.forall_mem_cons.2 ⟨hself, h.laidOut⟩
  · rw [hnodes]
    exact List.forall_mem_cons.2 ⟨hbacked, h.backed⟩
  · rw [hnodes, List.pairwise_cons]
    exact ⟨fun m hm => (h.from_start.starts m hm).1, h.sorted⟩
  · rw [hnodes]
    exact List.forall_mem_cons.2 ⟨h.starts n hn, h.starts⟩
  · simpa using h.stops n (by simp)
  · rw [hnodes]
    exact List.forall_mem_cons.2 ⟨(h.ends n hn).within (by simp [Node.children]) rfl, h.ends⟩

/-- What a leaf is does not matter to where it stands, if it ends with what has been read. -/
theorem relabel {kind kind' : Kind Node} {span : Span}
    (h : Row source loose lo [⟨kind, span, []⟩] hi stop) (hkind : kind'.nodes = [])
    (hbacked : IsBacked source kind') (hends : span.stop ≤ hi) :
    Row source loose lo [⟨kind', span, []⟩] hi stop := by
  have hmem : (⟨kind, span, []⟩ : Node) ∈ nodesIn [⟨kind, span, []⟩] := by simp
  have hlaid := h.laidOut _ hmem
  have hnodes : nodesIn [⟨kind', span, []⟩] = [⟨kind', span, []⟩] := by simp [Node.children, hkind]
  have hself : LaidOut source ⟨kind', span, []⟩ := {
    start_le_stop := hlaid.start_le_stop
    start := hlaid.start
    stop := hlaid.stop
    inside := by simp [Node.children, hkind]
    siblings := by simp [Node.children, hkind] }
  refine ⟨h.lo_le_hi, h.hi_le_stop, ?_, ?_, ?_, ?_, ?_, ?_, by simp⟩
  · simpa only [hnodes, List.forall_mem_singleton] using hself
  · simpa only [hnodes, List.forall_mem_singleton] using hbacked
  · simp [hnodes]
  · simpa only [hnodes, List.forall_mem_singleton] using h.starts _ hmem
  · simpa using h.stops ⟨kind, span, []⟩ (by simp)
  · rw [hnodes]
    exact List.forall_mem_singleton.2 (.inl hends)

theorem isBoundary_start (h : Row source loose lo [n] hi stop) : IsBoundary source n.span.start :=
  (h.laidOut n (by simp)).start

theorem le_start (h : Row source loose lo [n] hi stop) : lo ≤ n.span.start :=
  (h.starts n (by simp)).1

/-- The children of a node, with all that is below them. -/
theorem children (h : Row source loose lo [n] hi stop) :
    Row source (looseness n.kind) n.span.start n.children hi stop := by
  have hn : n ∈ nodesIn [n] := by simp
  have hlaid := h.laidOut n hn
  have hbelow : ∀ m ∈ nodesIn n.children, m ∈ nodesIn [n] := fun m hm => by simp [hm]
  have hsorted := h.sorted
  simp only [nodesIn_cons, nodesIn_nil, List.append_nil, List.pairwise_cons] at hsorted
  refine ⟨(h.starts n hn).2, h.hi_le_stop, fun m hm => h.laidOut m (hbelow m hm),
    fun m hm => h.backed m (hbelow m hm), hsorted.2, fun m hm => ?_, fun c hc => ?_,
    fun m hm => h.ends m (hbelow m hm), hlaid.siblings⟩
  · exact ⟨hsorted.1 m hm, (h.starts m (hbelow m hm)).2⟩
  · exact Nat.le_trans (hlaid.inside c hc).2 (h.stops n (by simp))

end Single

theorem single {n : Node} (h : Row source loose lo as hi stop) (hn : n ∈ as) :
    Row source .strict lo [n] hi stop := by
  obtain ⟨before, after, rfl⟩ := List.append_of_mem hn
  have hsub : ∀ m ∈ nodesIn [n], m ∈ nodesIn (before ++ n :: after) := by
    intro m hm
    simp only [nodesIn_cons, nodesIn_nil, List.append_nil] at hm
    simp only [nodesIn_append, nodesIn_cons, List.mem_append, List.mem_cons]
    exact .inr ((List.mem_cons.1 hm).imp id .inl)
  have hsorted := h.sorted
  rw [nodesIn_append, nodesIn_cons, ← List.cons_append, List.pairwise_append,
    List.pairwise_append] at hsorted
  refine ⟨h.lo_le_hi, h.hi_le_stop, fun m hm => h.laidOut m (hsub m hm),
    fun m hm => h.backed m (hsub m hm), ?_, fun m hm => h.starts m (hsub m hm), ?_,
    fun m hm => h.ends m (hsub m hm), by simp⟩
  · simpa using hsorted.2.1.1
  · simpa using h.stops n (by simp)

/-- In a strict row all nodes before the last one end by the time that one starts. -/
theorem split_last {n : Node} (h : Row source .strict lo (as ++ [n]) hi stop) :
    Row source .strict lo as n.span.start n.span.start ∧ Row source .strict n.span.start [n] hi stop := by
  have hn := h.single (List.mem_append_right as (List.mem_singleton.2 rfl))
  refine ⟨?_, hn.from_start⟩
  have hsub : ∀ m ∈ nodesIn as, m ∈ nodesIn (as ++ [n]) := fun m hm => by simp [hm]
  have hsorted := h.sorted
  have hsiblings := h.siblings
  rw [nodesIn_append, List.pairwise_append] at hsorted
  rw [List.pairwise_append] at hsiblings
  have hapart : ∀ m ∈ as, m.span.stop ≤ n.span.start :=
    fun m hm => (hsiblings.2.2 m hm n (by simp)).apart.resolve_right (·.1)
  have hlaid : ∀ m ∈ nodesIn as, LaidOut source m := fun m hm => h.laidOut m (hsub m hm)
  refine ⟨hn.le_start, Nat.le_refl _, hlaid, fun m hm => h.backed m (hsub m hm), hsorted.1,
    fun m hm => ?_, hapart, fun m hm => .inl (stop_le_of_mem_nodesIn hlaid hapart m hm), hsiblings.1⟩
  exact ⟨(h.starts m (hsub m hm)).1, hsorted.2.2 m hm n (by simp)⟩

end Row

end CaretContext.Php
