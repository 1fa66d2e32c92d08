import CaretContext.Proofs.Php.Gives
import CaretContext.Proofs.Php.MissingEnd

/-!
# Where constructs end

What has been read ends with the last token taken, with the last of the nodes read, or lacks an end. The
lemmas here follow this along the streams, up to the mark of a statement and the elements before it.
-/

namespace CaretContext.Php

open TokenParser Grammar CaretContext.Php.Stream

variable {α : Type} {source : Source} {s s' s'' : Stream} {ns ns' : List Node} {start : Nat} {t : Token}

/-! ### Ends with a token or a node -/

/-- Whether what has been read ends with the last token taken or with one of the nodes. -/
def Settled (ns : List Node) (s : Stream) : Prop := s.reach ≤ s.last ∨ ∃ n ∈ ns, n.span.stop = s.reach

/-- The same of what has been read since the first stream, if anything. -/
def Settles (s : Stream) (ns : List Node) (rest : Stream) : Prop := s.Rests rest ∨ Settled ns rest

theorem Settled.mono (h : Settled ns s) (hsub : ns ⊆ ns') : Settled ns' s :=
  h.imp_right fun ⟨n, hn, hstop⟩ => ⟨n, hsub hn, hstop⟩

theorem Settled.passes (h : Settled ns s) (hpasses : s.Passes s') : Settled ns s' := by
  rcases hpasses with hrests | hle
  · rw [Settled, hrests.reach, hrests.last]
    exact h
  · exact .inl hle

theorem Settled.trans (h : Settled ns s) (h' : Settles s ns' s') : Settled (ns ++ ns') s' := by
  rcases h' with hrests | hsettled
  · exact (h.passes (.inl hrests)).mono (List.subset_append_left _ _)
  · exact hsettled.mono (List.subset_append_right _ _)

theorem Settles.settled (h : Settles s ns s') (hs : s.reach ≤ s.last) : Settled ns s' :=
  h.elim (fun hrests => .inl (by grind)) id

theorem Settles.passes (h : Settles s ns s') (hpasses : s'.Passes s'') : Settles s ns s'' := by
  rcases h with hrests | hsettled
  · rcases hpasses with hrests' | hle
    · exact .inl (hrests.trans hrests')
    · exact .inr (.inl hle)
  · exact .inr (hsettled.passes hpasses)

theorem Settles.trans (h : Settles s ns s') (h' : Settles s' ns' s'') : Settles s (ns ++ ns') s'' := by
  rcases h with hrests | hsettled
  · rcases h' with hrests' | hsettled'
    · exact .inl (hrests.trans hrests')
    · exact .inr (hsettled'.mono (List.subset_append_right _ _))
  · exact .inr (hsettled.trans h')

/-- What comes behind a token just taken is all that matters. -/
theorem Settles.of_takes (ht : s.Takes source t s') (h : Settles s' ns s'') : Settles s ns s'' :=
  .inr (h.settled (by grind))

/-! ### Statements -/

/-- Whether the mark of a statement that starts at the offset and has the nodes has not been taken yet. -/
def Awaits (source : Source) (start : Nat) (ns : List Node) (s : Stream) : Prop :=
  ∀ taken, tokensOf source = taken ++ s.tokens → LacksMark source start ns taken

namespace Awaits

theorem mono (h : Awaits source start ns s) (hsub : ns ⊆ ns') : Awaits source start ns' s :=
  fun taken htaken front u hu hends =>
    (h taken htaken front u hu hends).imp_left fun ⟨c, hc, hle⟩ => ⟨c, hsub hc, hle⟩

theorem of_tokens_eq (h : Awaits source start ns s) (htokens : s'.tokens = s.tokens) :
    Awaits source start ns s' := by
  rw [Awaits, htokens]
  exact h

theorem of_isBehind (h : s.IsBehind source t) (ht : endsStatement t = false) :
    Awaits source start ns s := by
  rintro _ htaken front u rfl hends
  rw [h.eq_of_append htaken, ht] at hends
  cases hends

theorem of_last_le {c : Node} (hs : s.Reads source) (hc : c ∈ ns) (hle : s.last ≤ c.span.stop) :
    Awaits source start ns s := by
  rintro _ htaken front u rfl -
  have hlast : s.last = u.span.stop := IsBehind.last_eq ⟨front, by rw [htaken]; simp⟩ hs
  exact .inl ⟨c, hc, by omega⟩

end Awaits

theorem gives_terminator_cases : Gives source terminator s fun _ rest =>
    rest.reach ≤ rest.last ∨ ∃ t, s.ReachesOver t rest ∧ isTerminator t = false := by
  refine gives_peek.bind fun t s₁ hsees l₁ => gives_ite (fun _ => ?_) fun hmark => ?_
  · exact gives_next.bind fun _ s₂ htakes _ => gives_pure fun _ => .inl (by grind)
  refine gives_ite (fun _ => ?_) fun hclose => ?_
  · refine gives_next.bind fun _ s₂ htakes _ => (gives_nextIs _ 0).bind fun _ s₃ hrests _ => ?_
    refine gives_ite (fun _ => ?_) fun _ => gives_pure fun _ => .inl (by grind)
    exact gives_next.bind fun _ s₄ htakes' _ => gives_pure fun _ => .inl (by grind)
  · obtain ⟨items, hitems⟩ := hsees.front
    refine (gives_reachOver hitems).imp fun _ rest _ _ hover => .inr ⟨t, ?_, ?_⟩
    · obtain ⟨htokens, hlast, -⟩ := hsees.rests
      exact ⟨htokens ▸ hover.front, hover.tokens.trans htokens, hover.last.trans hlast, hover.reach⟩
    · simp_all [isTerminator]

/-- The last token taken and the one reached over are neighbours in the source. -/
theorem overruns_of_reachesOver {n : Node} (hs : s.Reads source) (hover : s.ReachesOver t s')
    (hstop : n.span.stop = s'.reach)
    (h : ∀ taken, tokensOf source = taken ++ s.tokens → LacksEnd source taken t n) : Overruns source n := by
  obtain ⟨taken, hsplit, -⟩ := hs.split
  obtain ⟨tokens, hfront⟩ := hover.front
  exact ⟨taken, t, tokens, hfront ▸ hsplit, hstop.trans hover.reach, h taken hsplit⟩

private theorem nodes_of_endsWithMark {kind : Kind Node} (h : endsWithMark kind = true) : kind.nodes = [] := by
  cases kind <;> first | rfl | cases h

/-- A statement takes its mark, or overruns the token in its place. -/
theorem gives_terminator (h : Awaits source start ns s) : Gives source terminator s fun _ rest =>
    ∀ kind, endsWithMark kind = true → EndsBy source ⟨kind, ⟨start, rest.reach⟩, ns⟩ rest.last := by
  refine Gives.of_reads fun hs => gives_terminator_cases.imp fun _ rest _ _ hrest kind hkind => ?_
  refine hrest.imp_right fun ⟨t, hover, ht⟩ => overruns_of_reachesOver hs hover rfl fun taken htaken => ?_
  refine .mark hkind ht ?_
  rw [Node.children, nodes_of_endsWithMark hkind, List.nil_append]
  exact h taken htaken

/-- The same behind the word that ends a statement with a colon. -/
theorem gives_terminator_of_word {word : String} (h : s.IsBehind source t) (ht : t.isKeyword word = true) :
    Gives source terminator s fun _ rest => ∀ kind start ns, endWord? kind = some word →
      EndsBy source ⟨kind, ⟨start, rest.reach⟩, ns⟩ rest.last := by
  refine Gives.of_reads fun hs => gives_terminator_cases.imp fun _ rest _ _ hrest kind start ns hkind => ?_
  refine hrest.imp_right fun ⟨u, hover, hu⟩ => overruns_of_reachesOver hs hover rfl fun taken htaken => ?_
  obtain ⟨front, hfront⟩ := h
  have hsame : taken ++ s.tokens = (front ++ [t]) ++ s.tokens := by
    rw [← htaken, hfront]
    simp
  exact .word hkind hu (List.append_cancel_right hsame) ht

theorem gives_terminator_of_front {tokens : List Token} (h : s.tokens = t :: tokens)
    (ht : isTerminator t = true) : Gives source terminator s fun _ rest => rest.reach ≤ rest.last := by
  refine gives_terminator_cases.imp fun _ rest _ _ hrest => hrest.resolve_right ?_
  rintro ⟨u, hover, hu⟩
  obtain ⟨tokens', hfront⟩ := hover.front
  rw [h] at hfront
  obtain ⟨rfl, -⟩ := List.cons.inj hfront
  rw [ht] at hu
  cases hu

/-! ### Elements in front of the mark -/

variable {nodes : α → List Node} {element : TokenParser α}

theorem Awaits.of_takes (h : s.Takes source t s') (ht : endsStatement t = false) :
    Awaits source start ns s' :=
  .of_isBehind h.isBehind ht

theorem endsStatement_of_symbol {text : String} (h : t.kind = .symbol text) (htext : text ≠ ";") :
    endsStatement t = false := by
  simp [endsStatement, isTerminator, Token.isSymbol, h, htext]

private theorem gives_skipComma (h : Awaits source start ns s) :
    Gives source (skipSymbol ",") s fun found rest =>
      Awaits source start ns rest ∧ (found = true → Awaits source start [] rest) := by
  refine (gives_skipSymbol ",").imp fun found rest _ _ hskip => ?_
  rcases hskip with ⟨-, comma, htakes, hcomma⟩ | ⟨rfl, hrests⟩
  · have hends := endsStatement_of_symbol (of_decide_eq_true hcomma) (by decide)
    exact ⟨.of_takes htakes hends, fun _ => .of_takes htakes hends⟩
  · exact ⟨h.of_tokens_eq hrests.tokens, by simp⟩

theorem subset_flatMap_reverse_cons (value : α) (elements : List α) :
    nodes value ⊆ (value :: elements).reverse.flatMap nodes := by
  simp

/-- A list of elements does not end with the mark if none of them does. -/
theorem awaits_commaSeparated (ends : Token → Bool) (hs : Awaits source start [] s)
    (h : ∀ s', s.Later s' → Gives source element s' fun value rest => Awaits source start (nodes value) rest) :
    Gives source (commaSeparated ends element) s fun values rest =>
      Awaits source start (values.flatMap nodes) rest := by
  refine gives_repeating (fun _ s' => Awaits source start [] s') hs fun elements s₁ l₁ hinv => ?_
  refine (gives_nextIs ends 0).bind fun ended s₂ hrests l₂ => ?_
  refine gives_ite (fun _ => gives_pure fun _ => ?_) fun _ => ?_
  · exact (hinv.of_tokens_eq hrests.tokens).mono (List.nil_subset _)
  refine (h s₂ (l₁.trans l₂)).bind fun value s₃ hvalue _ => ?_
  refine (gives_skipComma hvalue).bind fun found s₄ hskip _ => ?_
  refine gives_ite (fun hfound => gives_pure fun _ => hskip.2 hfound) fun _ => gives_pure fun _ => ?_
  exact hskip.1.mono (subset_flatMap_reverse_cons value elements)

theorem awaits_separated
    (h : ∀ s', s.Later s' → Gives source element s' fun value rest => Awaits source start (nodes value) rest) :
    Gives source (separated element) s fun values rest => Awaits source start (values.flatMap nodes) rest := by
  refine gives_repeating (fun _ _ => True) trivial fun elements s₁ l₁ _ => ?_
  refine (h s₁ l₁).bind fun value s₂ hvalue _ => (gives_skipComma hvalue).bind fun found s₃ hskip _ => ?_
  refine gives_ite (fun _ => gives_pure fun _ => trivial) fun _ => gives_pure fun _ => ?_
  exact hskip.1.mono (subset_flatMap_reverse_cons value elements)

/-- Elements of which nothing is kept give no nodes. -/
theorem Awaits.of_flatMap_nil {values : List α} (h : Awaits source start (values.flatMap fun _ => []) s) :
    Awaits source start [] s :=
  h.mono (by simp)

end CaretContext.Php
