import CaretContext.Php.TokenParser
import CaretContext.Proofs.Php.Tokens

/-!
# Streams that reading can come to

A stream stands between the tokens that have been taken and those that have not. What has been read
reaches to the end of the last token taken, or over the next one. Every move of a reader keeps this,
and no move goes back.
-/

namespace CaretContext.Php

namespace Stream

def tokens (s : Stream) : List Token := tokensIn s.items

/-- Whether reading the source can come to the stream. -/
structure Reads (source : Source) (s : Stream) : Prop where
  items : s.items ⊆ itemsOf source
  split : ∃ taken, tokensOf source = taken ++ s.tokens ∧ s.last = lastStop taken
  reach : s.reach = s.last ∨ ∃ t rest, s.tokens = t :: rest ∧ s.reach = t.span.stop

/-- Whether every token that has not been taken starts at the offset or behind it. -/
def Ahead (s : Stream) (offset : Nat) : Prop := ∀ t ∈ s.tokens, offset ≤ t.span.start

/-- The second stream comes no earlier than the first. -/
@[grind cases]
structure Later (s s' : Stream) : Prop where
  leads : s.Leads s'
  last_le : s.last ≤ s'.last
  reach_le : s.reach ≤ s'.reach
  last_le_reach : s'.last ≤ s'.reach

/-- Looking has changed nothing but the faults. -/
@[grind cases]
structure Rests (s s' : Stream) : Prop where
  tokens : s'.tokens = s.tokens
  last : s'.last = s.last
  reach : s'.reach = s.reach

/-- The token is at the front. -/
@[grind cases]
structure Sees (source : Source) (s : Stream) (t : Token) (s' : Stream) : Prop where
  front : ∃ items, s'.items = .token t :: items
  rests : s.Rests s'
  ahead : s'.Ahead t.span.start
  last_le : s.last ≤ t.span.start
  start_le_stop : t.span.start ≤ t.span.stop
  isBoundary : IsBoundary source t.span.start

def IsBehind (source : Source) (s : Stream) (t : Token) : Prop :=
  ∃ front, tokensOf source = front ++ t :: s.tokens

/-- The token has been taken. -/
@[grind cases]
structure Takes (source : Source) (s : Stream) (t : Token) (s' : Stream) : Prop where
  tokens : s.tokens = t :: s'.tokens
  last : s'.last = t.span.stop
  reach : s'.reach = t.span.stop
  last_le : s.last ≤ t.span.start
  start_le_stop : t.span.start ≤ t.span.stop
  reach_le : s.reach ≤ t.span.stop
  isBoundary : IsBoundary source t.span.start
  isBehind : s'.IsBehind source t

/-- What is read reaches over the token at the front, which is not taken. -/
@[grind cases]
structure ReachesOver (s : Stream) (t : Token) (s' : Stream) : Prop where
  front : ∃ tokens, s.tokens = t :: tokens
  tokens : s'.tokens = s.tokens
  last : s'.last = s.last
  reach : s'.reach = t.span.stop

/-- Nothing has been read since the first stream that reaches over the front of the second. -/
def Passes (s s' : Stream) : Prop := s.Rests s' ∨ s'.reach ≤ s'.last

variable {source : Source} {s s' s'' : Stream} {t : Token}

theorem tokens_of_items {items : List Item} (h : s.items = .token t :: items) :
    s.tokens = t :: tokensIn items := by
  rw [tokens, h, tokensIn_token]

namespace Reads

theorem mem_tokensOf (h : s.Reads source) (ht : t ∈ s.tokens) : t ∈ tokensOf source := by
  obtain ⟨taken, htokens, -⟩ := h.split
  rw [htokens]
  exact List.mem_append_right taken ht

theorem last_le_start (h : s.Reads source) (ht : t ∈ s.tokens) : s.last ≤ t.span.start := by
  obtain ⟨taken, htokens, hlast⟩ := h.split
  have hsorted := pairwise_tokensOf source
  rw [htokens, List.pairwise_append] at hsorted
  rw [hlast]
  rcases List.eq_nil_or_concat taken with rfl | ⟨front, u, rfl⟩
  · exact Nat.zero_le _
  · simp only [List.concat_eq_append, lastStop_concat]
    exact hsorted.2.2 u (by simp) t ht

theorem last_le_reach (h : s.Reads source) : s.last ≤ s.reach := by
  rcases h.reach with hreach | ⟨t, rest, htokens, hreach⟩
  · omega
  · have ht : t ∈ s.tokens := by simp [htokens]
    have hstart := h.last_le_start ht
    have hspan := start_le_stop_of_mem_tokensOf (h.mem_tokensOf ht)
    omega

/-- What has been read reaches at most over the first token that is left. -/
theorem reach_le_stop (h : s.Reads source) {rest : List Token} (ht : s.tokens = t :: rest) :
    s.reach ≤ t.span.stop := by
  have hmem : t ∈ s.tokens := by simp [ht]
  have hstart := h.last_le_start hmem
  have hspan := start_le_stop_of_mem_tokensOf (h.mem_tokensOf hmem)
  rcases h.reach with hreach | ⟨u, rest', hu, hreach⟩
  · omega
  · rw [ht] at hu
    obtain ⟨rfl, -⟩ := List.cons.inj hu
    omega

theorem ahead (h : s.Reads source) {rest : List Token} (ht : s.tokens = t :: rest) :
    s.Ahead t.span.start := by
  obtain ⟨taken, htokens, -⟩ := h.split
  have hsorted := pairwise_tokensOf source
  rw [htokens, ht, List.pairwise_append, List.pairwise_cons] at hsorted
  intro u hu
  rw [ht, List.mem_cons] at hu
  rcases hu with rfl | hu
  · exact Nat.le_refl _
  · have hmem : t ∈ s.tokens := by simp [ht]
    have hspan := start_le_stop_of_mem_tokensOf (h.mem_tokensOf hmem)
    have hnext := hsorted.2.1.1 u hu
    omega

theorem isBoundary_last (h : s.Reads source) : IsBoundary source s.last := by
  obtain ⟨taken, htokens, hlast⟩ := h.split
  rw [hlast]
  rcases List.eq_nil_or_concat taken with rfl | ⟨front, u, rfl⟩
  · exact .zero source
  · simp only [List.concat_eq_append, lastStop_concat]
    exact isBoundary_stop (by simp [htokens])

theorem isBoundary_reach (h : s.Reads source) : IsBoundary source s.reach := by
  rcases h.reach with hreach | ⟨t, rest, htokens, hreach⟩
  · rw [hreach]
    exact h.isBoundary_last
  · rw [hreach]
    exact isBoundary_stop (h.mem_tokensOf (by simp [htokens]))

/-- Of the tokens that end before what has been read does, none is left. -/
theorem stop_le_last (h : s.Reads source) (ht : t ∈ tokensOf source) (hlt : t.span.stop < s.reach) :
    t.span.stop ≤ s.last := by
  rcases h.reach with hreach | ⟨u, rest, hu, hreach⟩
  · omega
  · obtain ⟨taken, htokens, hlast⟩ := h.split
    have hsorted := pairwise_tokensOf source
    have hspan := start_le_stop_of_mem_tokensOf ht
    rw [hu] at htokens
    rw [htokens, List.pairwise_append, List.pairwise_cons] at hsorted
    rw [htokens] at ht
    simp only [List.mem_append, List.mem_cons] at ht
    rcases ht with ht | rfl | ht
    · rw [hlast]
      exact stop_le_lastStop htokens ht
    · omega
    · have hle := hsorted.2.1.1 t ht
      omega

theorem ofSource (source : Source) : (Stream.ofSource source).Reads source :=
  ⟨List.Subset.refl _, ⟨[], rfl, rfl⟩, .inl rfl⟩

theorem step (h : s.Reads source) (move : s.Step s') : s'.Reads source := by
  obtain ⟨taken, htokens, hlast⟩ := h.split
  have hall := h.items
  cases move with
  | @take token items hitems =>
    rw [tokens_of_items hitems] at htokens
    rw [hitems, List.cons_subset] at hall
    refine ⟨hall.2, ⟨taken ++ [token], ?_, by simp [behind]⟩, .inl rfl⟩
    rw [htokens]
    simp [tokens, behind]
  | @pass fault before after hitems =>
    have hsame : s.tokens = tokensIn (before ++ after) := by simp [tokens, hitems]
    have hreach := h.reach
    rw [hsame] at htokens hreach
    rw [hitems, List.append_subset, List.cons_subset] at hall
    exact ⟨List.append_subset.2 ⟨hall.1, hall.2.2⟩, ⟨taken, htokens, hlast⟩, hreach⟩
  | @reach token items hitems =>
    refine ⟨hall, ⟨taken, htokens, hlast⟩, .inr ⟨token, _, tokens_of_items hitems, ?_⟩⟩
    exact Nat.max_eq_right (h.reach_le_stop (tokens_of_items hitems))
  | mark a b => exact ⟨hall, h.split, h.reach⟩

/-- Behind a later stream the front token is still there, or ends by the last one taken. -/
theorem tokens_eq_or_stop_le_last (h : s.Reads source) (h' : s'.Reads source)
    (hsuffix : s'.tokens <:+ s.tokens) {rest : List Token} (ht : s.tokens = t :: rest) :
    s'.tokens = s.tokens ∨ t.span.stop ≤ s'.last := by
  rw [ht] at hsuffix ⊢
  refine (List.suffix_cons_iff.1 hsuffix).imp_right ?_
  rintro ⟨inner, rfl⟩
  obtain ⟨taken, hsplit, -⟩ := h.split
  obtain ⟨taken', hsplit', hlast⟩ := h'.split
  have hsame : (taken ++ t :: inner) ++ s'.tokens = taken' ++ s'.tokens := by
    rw [← hsplit', hsplit, ht]
    simp
  have hmem : t ∈ taken' := by simp [← List.append_cancel_right hsame]
  rw [hlast]
  exact stop_le_lastStop hsplit' hmem

private theorem giveUp (h : s.Reads source) (h' : s'.Reads source) (hsuffix : s'.tokens <:+ s.tokens)
    (hlast : s.last ≤ s'.last) : (s'.giveUp s.reach).Reads source := by
  refine ⟨h'.items, h'.split, ?_⟩
  by_cases hle : s.reach ≤ s'.last
  · exact .inl (Nat.max_eq_right hle)
  · right
    rcases h.reach with hreach | ⟨t, rest, ht, hreach⟩
    · omega
    · rcases h.tokens_eq_or_stop_le_last h' hsuffix ht with hsame | hstop
      · refine ⟨t, rest, hsame.trans ht, ?_⟩
        exact (Nat.max_eq_left (by omega)).trans hreach
      · omega

end Reads

theorem Leads.tokens_suffix (moves : s.Leads s') : s'.tokens <:+ s.tokens := by
  induction moves with
  | refl => exact List.suffix_refl _
  | giveUp _ _ ih ih' => exact ih'.trans ih
  | @step first stream next _ move ih =>
    refine List.IsSuffix.trans ?_ ih
    cases move with
    | take hitems =>
      rw [tokens_of_items hitems]
      exact List.suffix_cons _ _
    | pass hitems => simp [tokens, hitems]
    | reach => exact List.suffix_refl _
    | mark => exact List.suffix_refl _

private theorem Step.le (move : s.Step s') (h : s.Reads source) : s.last ≤ s'.last ∧ s.reach ≤ s'.reach := by
  cases move with
  | @take token items hitems =>
    have htokens := tokens_of_items hitems
    have hmem : token ∈ s.tokens := by simp [htokens]
    have hstart := h.last_le_start hmem
    have hspan := start_le_stop_of_mem_tokensOf (h.mem_tokensOf hmem)
    exact ⟨Nat.le_trans hstart hspan, h.reach_le_stop htokens⟩
  | pass => exact ⟨Nat.le_refl _, Nat.le_refl _⟩
  | reach => exact ⟨Nat.le_refl _, Nat.le_max_left _ _⟩
  | mark => exact ⟨Nat.le_refl _, Nat.le_refl _⟩

private theorem Leads.reads_and_le (moves : s.Leads s') (h : s.Reads source) :
    s'.Reads source ∧ s.last ≤ s'.last ∧ s.reach ≤ s'.reach := by
  induction moves with
  | refl => exact ⟨h, Nat.le_refl _, Nat.le_refl _⟩
  | step _ move ih =>
    obtain ⟨hreads, hle⟩ := ih h
    have hstep := move.le hreads
    exact ⟨hreads.step move, by omega, by omega⟩
  | @giveUp first start stream _ inner ih ih' =>
    obtain ⟨hstart, hle⟩ := ih h
    obtain ⟨hstream, hle'⟩ := ih' hstart
    refine ⟨hstart.giveUp hstream inner.tokens_suffix hle'.1, Nat.le_trans hle.1 hle'.1, ?_⟩
    exact Nat.le_trans hle.2 (Nat.le_max_left _ _)

theorem Reads.leads (h : s.Reads source) (moves : s.Leads s') : s'.Reads source :=
  (moves.reads_and_le h).1

theorem Leads.later (moves : s.Leads s') (h : s.Reads source) : s.Later s' := by
  obtain ⟨hreads, hle⟩ := moves.reads_and_le h
  exact ⟨moves, hle.1, hle.2, hreads.last_le_reach⟩

theorem Later.trans (h : s.Later s') (h' : s'.Later s'') : s.Later s'' :=
  ⟨h.leads.trans h'.leads, Nat.le_trans h.last_le h'.last_le, Nat.le_trans h.reach_le h'.reach_le,
    h'.last_le_reach⟩

theorem Ahead.leads {offset : Nat} (h : s.Ahead offset) (moves : s.Leads s') : s'.Ahead offset :=
  fun t ht => h t (moves.tokens_suffix.subset ht)

theorem Ahead.le {offset : Nat} (h : s.Ahead offset) {rest : List Token} (ht : s.tokens = t :: rest) :
    offset ≤ t.span.start :=
  h t (by simp [ht])

/-! ### Looking and taking -/

theorem Rests.refl (s : Stream) : s.Rests s := ⟨rfl, rfl, rfl⟩

theorem Rests.trans (h : s.Rests s') (h' : s'.Rests s'') : s.Rests s'' :=
  ⟨h'.tokens.trans h.tokens, h'.last.trans h.last, h'.reach.trans h.reach⟩

theorem Takes.of_rests (hrests : s.Rests s') (h : s'.Takes source t s'') : s.Takes source t s'' := by
  obtain ⟨htokens, hlast, hreach⟩ := hrests
  exact { h with tokens := htokens ▸ h.tokens, last_le := hlast ▸ h.last_le, reach_le := hreach ▸ h.reach_le }

theorem IsBehind.of_rests (h : s.IsBehind source t) (hrests : s.Rests s') : s'.IsBehind source t := by
  rw [IsBehind, hrests.tokens]
  exact h

/-- Looking at what follows a token leaves it taken. -/
theorem Takes.rests (h : s.Takes source t s') (hrests : s'.Rests s'') : s.Takes source t s'' :=
  { h with
    tokens := hrests.tokens ▸ h.tokens
    last := hrests.last.trans h.last
    reach := hrests.reach.trans h.reach
    isBehind := h.isBehind.of_rests hrests }

theorem IsBehind.last_eq (h : s.IsBehind source t) (hs : s.Reads source) : s.last = t.span.stop := by
  obtain ⟨front, hfront⟩ := h
  obtain ⟨taken, htaken, hlast⟩ := hs.split
  have hsame : (front ++ [t]) ++ s.tokens = taken ++ s.tokens := by
    rw [← htaken, hfront]
    simp
  rw [hlast, ← List.append_cancel_right hsame, lastStop_concat]

theorem IsBehind.eq_of_append (h : s.IsBehind source t) {front : List Token} {u : Token}
    (hu : tokensOf source = front ++ [u] ++ s.tokens) : u = t := by
  obtain ⟨before, hbefore⟩ := h
  have hsame : (before ++ [t]) ++ s.tokens = (front ++ [u]) ++ s.tokens := by
    rw [← hu, hbefore]
    simp
  have hlast := List.append_inj_right' (List.append_cancel_right hsame) rfl
  exact (List.singleton_inj.1 hlast).symm

private theorem Reads.last_eq_of_tokens_eq (h : s.Reads source) (h' : s'.Reads source)
    (htokens : s'.tokens = s.tokens) : s'.last = s.last := by
  obtain ⟨taken, hsplit, hlast⟩ := h.split
  obtain ⟨taken', hsplit', hlast'⟩ := h'.split
  rw [htokens, hsplit] at hsplit'
  rw [hlast', hlast, List.append_cancel_right hsplit']

/-! ### Passing over -/

theorem Passes.trans (h : s.Passes s') (h' : s'.Passes s'') : s.Passes s'' := by
  rcases h' with hrests' | hle
  · rcases h with hrests | hle
    · exact .inl (hrests.trans hrests')
    · exact .inr (by grind)
  · exact .inr hle

theorem Takes.passes (h : s.Takes source t s') : s.Passes s' := .inr (by grind)

/-- What has been given up reaches over nothing that it did not reach over before. -/
theorem Leads.passes_giveUp (moves : s.Leads s') (hs : s.Reads source) :
    s.Passes (s'.giveUp s.reach) := by
  have hs' := hs.leads moves
  by_cases hle : s.reach ≤ s'.last
  · exact .inr (Nat.le_of_eq (Nat.max_eq_right hle))
  · rcases hs.reach with hreach | ⟨t, rest, ht, hreach⟩
    · have hlast := (moves.later hs).last_le
      omega
    · rcases hs.tokens_eq_or_stop_le_last hs' moves.tokens_suffix ht with hsame | hstop
      · have hlast := hs.last_eq_of_tokens_eq hs' hsame
        exact .inl ⟨hsame, hlast, Nat.max_eq_left (by omega)⟩
      · omega

end Stream

end CaretContext.Php
