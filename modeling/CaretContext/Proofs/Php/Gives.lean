import CaretContext.Proofs.Php.Stream

/-!
# What a parser gives

`Gives source p s post` says that whatever `p` reads from the stream `s` satisfies `post`, together
with the stream it leaves. A failure satisfies everything. The rules follow the ways in which parsers
are put together, and each passes on how far the stream has moved.
-/

namespace CaretContext.Php

open TokenParser CaretContext.Php.Stream

variable {α β σ : Type} {source : Source} {s : Stream}

def Gives (source : Source) (p : TokenParser α) (s : Stream) (post : α → Stream → Prop) : Prop :=
  s.Reads source → ∀ value rest, p.run s = .done value rest → post value rest

/-! ### Sequences and branches -/

private theorem run_pure (value : α) (s : Stream) : (pure value : TokenParser α).run s = .done value s := rfl

theorem run_bind (p : TokenParser α) (f : α → TokenParser β) (s : Stream) :
    (p >>= f).run s = match p.run s with
      | .done value rest => (f value).run rest
      | .failed rest => .failed rest := rfl

private theorem later_of_run {p : TokenParser α} {value : α} {rest : Stream} (h : p.run s = .done value rest)
    (hs : s.Reads source) : s.Later rest := by
  have hleads := p.leads s
  rw [h] at hleads
  exact hleads.later hs

namespace Gives

variable {p : TokenParser α} {f : α → TokenParser β} {mid : α → Stream → Prop}

theorem bind {post : β → Stream → Prop} (hp : Gives source p s mid)
    (hf : ∀ value rest, mid value rest → s.Later rest → Gives source (f value) rest post) :
    Gives source (p >>= f) s post := by
  intro hs value rest hrun
  rw [run_bind] at hrun
  cases h : p.run s with
  | failed rest => simp [h] at hrun
  | done first middle =>
    rw [h] at hrun
    have hlater := later_of_run h hs
    exact hf first middle (hp hs first middle h) hlater (hs.leads hlater.leads) value rest hrun

/-- The rule for a part whose result does not matter. -/
theorem after {post : β → Stream → Prop}
    (hf : ∀ value rest, s.Later rest → Gives source (f value) rest post) :
    Gives source (p >>= f) s post := by
  have hp : Gives source p s fun _ _ => True := fun _ _ _ _ => trivial
  exact hp.bind fun value rest _ hlater => hf value rest hlater

theorem imp {post : α → Stream → Prop} (hp : Gives source p s mid)
    (h : ∀ value rest, rest.Reads source → s.Later rest → mid value rest → post value rest) :
    Gives source p s post := by
  intro hs value rest hrun
  have hlater := later_of_run hrun hs
  exact h value rest (hs.leads hlater.leads) hlater (hp hs value rest hrun)

theorem and {post post' : α → Stream → Prop} (h : Gives source p s post) (h' : Gives source p s post') :
    Gives source p s fun value rest => post value rest ∧ post' value rest :=
  fun hs value rest hrun => ⟨h hs value rest hrun, h' hs value rest hrun⟩

theorem run : Gives source p s fun value rest => p.run s = .done value rest :=
  fun _ _ _ hrun => hrun

theorem of_reads {post : α → Stream → Prop} (h : s.Reads source → Gives source p s post) :
    Gives source p s post :=
  fun hs => h hs hs

end Gives

theorem gives_pure {value : α} {post : α → Stream → Prop} (h : s.Reads source → post value s) :
    Gives source (pure value) s post := by
  intro hs found rest hrun
  rw [run_pure] at hrun
  cases hrun
  exact h hs

theorem gives_fail {post : α → Stream → Prop} : Gives source fail s post := by
  intro _ value rest hrun
  cases hrun

theorem gives_ite {c : Prop} [Decidable c] {p q : TokenParser α} {post : α → Stream → Prop}
    (hp : c → Gives source p s post) (hq : ¬c → Gives source q s post) :
    Gives source (if c then p else q) s post := by
  split
  · exact hp ‹_›
  · exact hq ‹_›

/-! ### Looking ahead -/

private theorem tokensIn_lookBehind (n : Nat) (items : List Item) :
    tokensIn (lookBehind n items).2 = tokensIn items := by
  rcases lookBehind_items n items with h | ⟨before, fault, after, hitems, h⟩
  · rw [h]
  · rw [h, hitems]
    simp

theorem gives_peekAt? (n : Nat) : Gives source (peekAt? n) s fun _ rest => s.Rests rest := by
  intro _ value rest hrun
  have htokens := tokensIn_lookBehind n s.items
  rw [peekAt?] at hrun
  dsimp only at hrun
  split at hrun <;> rename_i items hlook <;> rw [hlook] at htokens <;> cases hrun
  · exact ⟨htokens, rfl, rfl⟩
  · exact ⟨htokens, rfl, rfl⟩

private theorem lookBehind_zero_token {items items' : List Item} {t : Token}
    (h : lookBehind 0 items = (.token t, items')) : items' = items ∧ ∃ rest, items = .token t :: rest := by
  cases items with
  | nil => simp [lookBehind] at h
  | cons item items =>
    cases item with
    | token u =>
      simp only [lookBehind, Prod.mk.injEq, Sight.token.injEq] at h
      obtain ⟨rfl, rfl⟩ := h
      exact ⟨rfl, items, rfl⟩
    | fault fault => cases fault <;> simp [lookBehind] at h

private theorem sees_of_items {t : Token} {items : List Item} (h : s.items = .token t :: items)
    (hs : s.Reads source) : s.Sees source t s := by
  have htokens := tokens_of_items h
  have hmem : t ∈ s.tokens := by simp [htokens]
  have hsource := hs.mem_tokensOf hmem
  exact ⟨⟨items, h⟩, ⟨rfl, rfl, rfl⟩, hs.ahead htokens, hs.last_le_start hmem,
    start_le_stop_of_mem_tokensOf hsource, isBoundary_start hsource⟩

theorem gives_peek? :
    Gives source peek? s fun found rest => s.Rests rest ∧ ∀ t, found = some t → s.Sees source t rest := by
  refine Gives.of_reads fun hs => ?_
  intro _ value rest hrun
  refine ⟨gives_peekAt? 0 hs value rest hrun, ?_⟩
  rintro t rfl
  rw [peek?, peekAt?] at hrun
  dsimp only at hrun
  split at hrun <;> rename_i items hlook <;> simp at hrun
  obtain ⟨rfl, rfl⟩ := hrun
  obtain ⟨rfl, items, hitems⟩ := lookBehind_zero_token hlook
  exact sees_of_items hitems hs

/-- Nothing is seen where no token is left, or where the text of a string breaks off. -/
theorem gives_peek?_none : Gives source peek? s fun found rest =>
    found = none → rest.tokens = [] ∨ .fault .interruption ∈ itemsOf source := by
  intro hs value rest hrun hnone
  obtain rfl := hnone
  rw [peek?, peekAt?] at hrun
  dsimp only at hrun
  split at hrun <;> rename_i items hlook <;> simp at hrun
  obtain rfl := hrun
  cases hitems : s.items with
  | nil =>
    rw [hitems, lookBehind] at hlook
    cases hlook
    exact .inl rfl
  | cons item rest =>
    have hitem := hs.items (hitems ▸ List.mem_cons_self)
    rw [hitems] at hlook
    cases item with
    | token t => simp [lookBehind] at hlook
    | fault fault => cases fault <;> simp_all [lookBehind]

theorem gives_peek : Gives source peek s fun t rest => s.Sees source t rest := by
  refine gives_peek?.bind fun found rest hfound hlater => ?_
  cases found with
  | none => exact gives_fail
  | some t => exact gives_pure fun _ => hfound.2 t rfl

theorem gives_nextIs (test : Token → Bool) (n : Nat) :
    Gives source (nextIs test n) s fun _ rest => s.Rests rest :=
  (gives_peekAt? n).bind fun _ _ hrests _ => gives_pure fun _ => hrests

/-- What is said of the next token is so, unless the text of a string breaks off before it. -/
theorem gives_nextIs_front (test : Token → Bool) : Gives source (nextIs test) s fun found rest =>
    (found = true → ∃ t, s.Sees source t rest ∧ test t = true) ∧
      (found = false → (∀ t tokens, rest.tokens = t :: tokens → test t = false) ∨
        .fault .interruption ∈ itemsOf source) := by
  refine (gives_peek?.and gives_peek?_none).bind fun found rest hfound _ => gives_pure fun _ => ?_
  cases found with
  | none => exact ⟨by simp, fun _ => (hfound.2 rfl).imp_left fun hnil => by simp [hnil]⟩
  | some t =>
    have hsees := hfound.1.2 t rfl
    obtain ⟨items, hitems⟩ := hsees.front
    refine ⟨fun htest => ⟨t, hsees, htest⟩, fun htest => .inl fun u tokens htokens => ?_⟩
    rw [tokens_of_items hitems] at htokens
    obtain ⟨rfl, -⟩ := List.cons.inj htokens
    exact htest

theorem gives_anyOf (tests : List (TokenParser Bool))
    (h : ∀ test ∈ tests, ∀ s, Gives source test s fun _ rest => s.Rests rest) :
    Gives source (anyOf tests) s fun _ rest => s.Rests rest := by
  induction tests generalizing s with
  | nil => exact gives_pure fun _ => Rests.refl s
  | cons test tests ih =>
    refine (h test (by simp) s).bind fun found s₁ hrests _ => gives_ite (fun _ => ?_) fun _ => ?_
    · exact gives_pure fun _ => hrests
    · exact (ih fun p hp => h p (by simp [hp])).imp fun _ _ _ _ hrests' => Rests.trans hrests hrests'

theorem gives_allOf (tests : List (TokenParser Bool))
    (h : ∀ test ∈ tests, ∀ s, Gives source test s fun _ rest => s.Rests rest) :
    Gives source (allOf tests) s fun _ rest => s.Rests rest := by
  induction tests generalizing s with
  | nil => exact gives_pure fun _ => Rests.refl s
  | cons test tests ih =>
    refine (h test (by simp) s).bind fun found s₁ hrests _ => gives_ite (fun _ => ?_) fun _ => ?_
    · exact (ih fun p hp => h p (by simp [hp])).imp fun _ _ _ _ hrests' => Rests.trans hrests hrests'
    · exact gives_pure fun _ => hrests

theorem gives_allOf_atSymbol (known : Bool) (text : String) :
    Gives source (allOf [pure known, atSymbol text]) s fun _ rest => s.Rests rest := by
  refine gives_allOf _ fun test htest s' => ?_
  simp only [List.mem_cons, List.not_mem_nil, or_false] at htest
  rcases htest with rfl | rfl
  · exact gives_pure fun _ => .refl s'
  · exact gives_nextIs _ 0

/-- Whether a construct that is read from here on may start at the offset. -/
structure Opens (source : Source) (s : Stream) (start : Nat) : Prop where
  isBoundary : IsBoundary source start
  ahead : s.Ahead start

theorem Opens.leads {s' : Stream} {start : Nat} (h : Opens source s start) (moves : s.Leads s') :
    Opens source s' start :=
  ⟨h.isBoundary, h.ahead.leads moves⟩

theorem Opens.le_last {s' : Stream} {start : Nat} {t : Token} (h : Opens source s start)
    (ht : s.Takes source t s') : start ≤ s'.last := by
  have hstart := h.ahead.le ht.tokens
  grind

/-- The token at the front is the first of those left. -/
theorem le_of_sees {s' : Stream} {t : Token} {offset : Nat} (h : s.Sees source t s')
    (hahead : s.Ahead offset) : offset ≤ t.span.start := by
  obtain ⟨items, hitems⟩ := h.front
  rw [Stream.Ahead, ← h.rests.tokens, tokens_of_items hitems] at hahead
  exact hahead t (by simp)

theorem gives_startOfNext : Gives source startOfNext s fun start rest =>
    Opens source rest start ∧ s.last ≤ start ∧ s.Rests rest ∧
      ∀ offset, s.Ahead offset → offset ≤ start :=
  gives_peek.bind fun _ _ hsees _ => gives_pure fun _ =>
    ⟨⟨hsees.isBoundary, hsees.ahead⟩, hsees.last_le, hsees.rests, fun _ hahead => le_of_sees hsees hahead⟩

/-! ### Taking tokens -/

private theorem gives_front : Gives source front s fun t rest => s.Takes source t rest := by
  intro hs t rest hrun
  rw [front] at hrun
  dsimp only at hrun
  split at hrun
  · rename_i u items hitems
    cases hrun
    have htokens := tokens_of_items hitems
    have hmem : t ∈ s.tokens := by simp [htokens]
    have hsource := hs.mem_tokensOf hmem
    obtain ⟨taken, hsplit, -⟩ := hs.split
    exact ⟨htokens, rfl, rfl, hs.last_le_start hmem, start_le_stop_of_mem_tokensOf hsource,
      hs.reach_le_stop htokens, isBoundary_start hsource, taken, by rw [hsplit, htokens]; rfl⟩
  · cases hrun

theorem gives_next : Gives source next s fun t rest => s.Takes source t rest :=
  gives_peek.bind fun _ _ hsees _ =>
    gives_front.imp fun _ _ _ _ htakes => htakes.of_rests hsees.rests

/-- The token taken is the one that was at the front. -/
theorem eq_of_sees {s' s'' : Stream} {t u : Token} (h : s.Sees source t s')
    (h' : s'.Takes source u s'') : u = t := by
  obtain ⟨items, hitems⟩ := h.front
  have hhead := h'.tokens
  rw [tokens_of_items hitems] at hhead
  exact (List.cons.inj hhead).1.symm

theorem gives_expect (test : Token → Bool) :
    Gives source (expect test) s fun t rest => s.Takes source t rest ∧ test t = true := by
  refine gives_peek.bind fun t s₁ hsees hlater => gives_ite (fun htest => ?_) fun _ => gives_fail
  refine gives_next.imp fun u rest _ _ htakes => ?_
  obtain rfl := eq_of_sees hsees htakes
  exact ⟨htakes.of_rests hsees.rests, htest⟩

theorem gives_symbol (text : String) :
    Gives source (symbol text) s fun t rest => s.Takes source t rest ∧ t.kind = .symbol text :=
  (gives_expect _).imp fun _ _ _ _ h => ⟨h.1, of_decide_eq_true h.2⟩

theorem gives_keyword (word : String) :
    Gives source (keyword word) s fun t rest => s.Takes source t rest ∧ t.kind = .keyword word :=
  (gives_expect _).imp fun _ _ _ _ h => ⟨h.1, of_decide_eq_true h.2⟩

theorem gives_nextSuchThat (test : Token → Bool) :
    Gives source (nextSuchThat test) s fun t rest => s.Takes source t rest ∧ test t = true :=
  gives_next.bind fun _ _ htakes _ =>
    gives_ite (fun htest => gives_pure fun _ => ⟨htakes, htest⟩) fun _ => gives_fail

private theorem gives_skip (test : Token → Bool) :
    Gives source (do if ← nextIs test then let _ ← next; return true else return false) s fun found rest =>
      (found = true ∧ ∃ t, s.Takes source t rest ∧ test t = true) ∨ (found = false ∧ s.Rests rest) := by
  refine ((gives_nextIs test 0).and (gives_nextIs_front test)).bind fun found s₁ h _ => ?_
  obtain ⟨hrests, hfront, -⟩ := h
  refine gives_ite (fun hfound => ?_) fun _ => gives_pure fun _ => .inr ⟨rfl, hrests⟩
  obtain ⟨t, hsees, htest⟩ := hfront hfound
  refine gives_next.bind fun u rest htakes _ => gives_pure fun _ => ?_
  obtain rfl := eq_of_sees hsees htakes
  exact .inl ⟨rfl, u, htakes.of_rests hrests, htest⟩

theorem gives_skipSymbol (text : String) : Gives source (skipSymbol text) s fun found rest =>
    (found = true ∧ ∃ t, s.Takes source t rest ∧ t.isSymbol text = true) ∨
      (found = false ∧ s.Rests rest) :=
  gives_skip _

theorem gives_skipKeyword (word : String) : Gives source (skipKeyword word) s fun found rest =>
    (found = true ∧ ∃ t, s.Takes source t rest ∧ t.isKeyword word = true) ∨
      (found = false ∧ s.Rests rest) :=
  gives_skip _

/-- A symbol that has been found missing is not next, unless the text of a string breaks off before it. -/
theorem gives_skipSymbol_missing (text : String) : Gives source (skipSymbol text) s fun found rest =>
    found = false → (∀ t tokens, rest.tokens = t :: tokens → t.isSymbol text = false) ∨
      .fault .interruption ∈ itemsOf source := by
  refine (gives_nextIs_front _).bind fun found s₁ hfront _ => gives_ite (fun _ => ?_) fun hfound => ?_
  · exact Gives.after fun _ _ _ => gives_pure fun _ => by simp
  · exact gives_pure fun _ _ => hfront.2 (by simpa using hfound)

/-! ### Places -/

theorem gives_lastEnd : Gives source lastEnd s fun place rest => place = s.last ∧ rest = s := by
  intro _ place rest hrun
  cases hrun
  exact ⟨rfl, rfl⟩

theorem gives_reach : Gives source reach s fun place rest => place = s.reach ∧ rest = s := by
  intro _ place rest hrun
  cases hrun
  exact ⟨rfl, rfl⟩

theorem gives_reachOver {t : Token} {items : List Item} (h : s.items = .token t :: items) :
    Gives source reachOver s fun _ rest => s.ReachesOver t rest := by
  intro hs value rest hrun
  have htokens := tokens_of_items h
  rw [reachOver] at hrun
  simp only [h] at hrun
  cases hrun
  exact ⟨⟨_, htokens⟩, by simp [Stream.tokens, h], rfl, Nat.max_eq_right (hs.reach_le_stop htokens)⟩

theorem gives_close {kind : Kind Node} {start : Nat} {children : List Node}
    {post : Node → Stream → Prop} (h : s.Reads source → post ⟨kind, ⟨start, s.reach⟩, children⟩ s) :
    Gives source (close kind start children) s post := by
  refine gives_reach.bind fun place rest hplace _ => ?_
  obtain ⟨rfl, rfl⟩ := hplace
  exact gives_pure h

/-! ### Places where words are names -/

theorem gives_inString : Gives source inString s fun _ rest => s.Rests rest := by
  intro _ value rest hrun
  cases hrun
  exact Rests.refl s

theorem gives_inVariableName : Gives source inVariableName s fun _ rest => s.Rests rest := by
  intro _ value rest hrun
  cases hrun
  exact Rests.refl s

theorem gives_asStringPart {p : TokenParser α} {post : α → Stream → Prop}
    (h : Gives source p { s with inString := true } fun value rest =>
      post value { rest with inString := s.inString }) : Gives source (asStringPart p) s post := by
  intro hs value rest hrun
  have hmarked := hs.step (.mark s s.inVariableName true)
  rw [asStringPart] at hrun
  dsimp only at hrun
  split at hrun
  · rename_i found middle hfound
    cases hrun
    exact h hmarked _ _ hfound
  · cases hrun

/-! ### Repetition and recovery -/

/-- What holds after a turn: the invariant if there is to be another one, and else the result. -/
def TokenParser.Turn.Keeps (inv : σ → Stream → Prop) (post : α → Stream → Prop) :
    Turn σ α → Stream → Prop
  | .again state, rest => inv state rest
  | .stop value, rest => post value rest

theorem gives_itemsLeft : Gives source itemsLeft s fun n rest => n = s.items.length ∧ rest = s := by
  intro _ n rest hrun
  cases hrun
  exact ⟨rfl, rfl⟩

theorem gives_below {p : TokenParser α} {post : α → Stream → Prop} (n : Nat)
    (h : Gives source p s post) : Gives source (below n p) s post := by
  refine gives_itemsLeft.bind fun left rest hleft _ => gives_ite (fun _ => ?_) fun _ => gives_fail
  obtain ⟨-, rfl⟩ := hleft
  exact h

private theorem gives_repeatWithin (inv : σ → Stream → Prop) {post : α → Stream → Prop}
    {turn : σ → TokenParser (Turn σ α)}
    (hturn : ∀ state s, inv state s → Gives source (turn state) s (Turn.Keeps inv post))
    (n : Nat) (state : σ) (hinv : inv state s) : Gives source (repeatWithin turn n state) s post := by
  induction n generalizing state s with
  | zero => exact gives_fail
  | succ n ih =>
    refine gives_itemsLeft.bind fun left s₁ hleft _ => ?_
    obtain ⟨-, rfl⟩ := hleft
    refine (hturn state s₁ hinv).bind fun result rest hresult _ => ?_
    cases result with
    | again state => exact gives_below left (ih state hresult)
    | stop value => exact gives_pure fun _ => hresult

/-- What every turn keeps holds to the end of a repetition. -/
theorem gives_repeating {state : σ} {turn : σ → TokenParser (Turn σ α)} {post : α → Stream → Prop}
    (inv : σ → Stream → Prop) (hinv : inv state s)
    (hturn : ∀ state s', s.Later s' → inv state s' →
      Gives source (turn state) s' (Turn.Keeps inv post)) :
    Gives source (repeating state turn) s post := by
  refine gives_itemsLeft.bind fun left s₁ hleft _ => Gives.of_reads fun hs => ?_
  obtain ⟨-, rfl⟩ := hleft
  have hrefl : s₁.Later s₁ := (Leads.refl s₁).later hs
  refine gives_repeatWithin (fun state s' => s₁.Later s' ∧ inv state s') (fun state s' h => ?_)
    (left + 1) state ⟨hrefl, hinv⟩
  refine (hturn state s' h.1 h.2).imp fun result rest _ hlater hkeeps => ?_
  cases result with
  | again state => exact ⟨h.1.trans hlater, hkeeps⟩
  | stop value => exact hkeeps

theorem gives_recover {p : TokenParser α} {post : α → Stream → Prop} (hp : Gives source p s post) :
    Gives source (recover p) s fun found rest =>
      (∀ value, found = some value → post value rest) ∧ (found = none → s.Passes rest) := by
  intro hs found rest hrun
  have hleads := p.leads s
  rw [recover] at hrun
  dsimp only at hrun
  split at hrun
  · cases hrun
    refine ⟨?_, by simp⟩
    rintro value ⟨⟩
    exact hp hs _ _ ‹_›
  · rename_i stopped hfailed
    cases hrun
    rw [hfailed] at hleads
    exact ⟨by simp, fun _ => hleads.passes_giveUp hs⟩

/-- Behind the parser at most one token is skipped. -/
theorem gives_forward {p : TokenParser α} {post : α → Stream → Prop} (hp : Gives source p s post) :
    Gives source (forward p) s fun value rest => ∃ middle, post value middle ∧ middle.Reads source ∧
      s.Later middle ∧ middle.Later rest ∧ middle.Passes rest := by
  refine Gives.of_reads fun hs => gives_lastEnd.bind fun start s₀ hstart _ => ?_
  obtain ⟨rfl, rfl⟩ := hstart
  refine hp.bind fun value s₁ hpost hlater => Gives.of_reads fun hs₁ => ?_
  refine gives_lastEnd.bind fun stop s₂ hstop hlater₂ => ?_
  obtain ⟨rfl, rfl⟩ := hstop
  refine gives_ite (fun _ => ?_) fun _ => ?_
  · refine (gives_recover gives_next).bind fun skipped s₃ hskipped hlater₃ => gives_pure fun _ => ?_
    refine ⟨s₂, hpost, hs₁, hlater, hlater₃, ?_⟩
    cases skipped with
    | none => exact hskipped.2 rfl
    | some t => exact (hskipped.1 t rfl).passes
  · exact gives_pure fun _ => ⟨s₂, hpost, hs₁, hlater, hlater₂, .inl (Rests.refl s₂)⟩

end CaretContext.Php
