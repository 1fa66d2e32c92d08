import CaretContext.Proofs.Php.Gives

/-!
# What a parser makes

`Makes source p post` says that whatever `p` gives satisfies `post`, from which stream of the source it
may be read. It is for facts about values alone, which need no word on where the stream has moved.
-/

namespace CaretContext.Php

open TokenParser

variable {α β σ : Type} {source : Source}

def Makes (source : Source) (p : TokenParser α) (post : α → Prop) : Prop :=
  ∀ s, Gives source p s fun value _ => post value

namespace Makes

variable {p : TokenParser α} {f : α → TokenParser β} {mid : α → Prop}

theorem bind {post : β → Prop} (hp : Makes source p mid)
    (hf : ∀ value, mid value → Makes source (f value) post) :
    Makes source (p >>= f) post :=
  fun s => (hp s).bind fun value rest hvalue _ => hf value hvalue rest

/-- The rule for a part whose result does not matter. -/
theorem after {post : β → Prop} (hf : ∀ value, Makes source (f value) post) : Makes source (p >>= f) post :=
  fun _ => Gives.after fun value rest _ => hf value rest

theorem imp {post : α → Prop} (hp : Makes source p mid) (h : ∀ value, mid value → post value) :
    Makes source p post :=
  fun s => (hp s).imp fun value _ _ _ hvalue => h value hvalue

end Makes

theorem makes_pure {value : α} {post : α → Prop} (h : post value) : Makes source (pure value) post :=
  fun _ => gives_pure fun _ => h

theorem makes_fail {post : α → Prop} : Makes source fail post := fun _ => gives_fail

theorem makes_ite {c : Prop} [Decidable c] {p q : TokenParser α} {post : α → Prop}
    (hp : c → Makes source p post) (hq : ¬c → Makes source q post) :
    Makes source (if c then p else q) post :=
  fun s => gives_ite (fun h => hp h s) fun h => hq h s

/-! ### Repetition and recovery -/

/-- What holds of a turn: the invariant if there is to be another one, and else the result. -/
def TokenParser.Turn.Upholds (inv : σ → Prop) (post : α → Prop) : Turn σ α → Prop
  | .again state => inv state
  | .stop value => post value

theorem makes_repeating {state : σ} {turn : σ → TokenParser (Turn σ α)} {post : α → Prop} (inv : σ → Prop)
    (hinv : inv state) (hturn : ∀ state, inv state → Makes source (turn state) (Turn.Upholds inv post)) :
    Makes source (repeating state turn) post := by
  intro s
  refine gives_repeating (fun state _ => inv state) hinv fun state s' _ hstate => ?_
  refine (hturn state hstate s').imp fun result _ _ _ hresult => ?_
  cases result <;> exact hresult

theorem makes_recover {p : TokenParser α} {post : α → Prop} (hp : Makes source p post) :
    Makes source (recover p) fun found => ∀ value, found = some value → post value :=
  fun s => (gives_recover (hp s)).imp fun _ _ _ _ h => h.1

theorem makes_forward {p : TokenParser α} {post : α → Prop} (hp : Makes source p post) :
    Makes source (forward p) post :=
  fun s => (gives_forward (hp s)).imp fun _ _ _ _ h => by
    obtain ⟨_, hvalue, -⟩ := h
    exact hvalue

/-! ### Lists -/

variable {element : TokenParser α} {post : α → Prop}

theorem forall_mem_reverse {values : List α} (h : ∀ value ∈ values, post value) :
    ∀ value ∈ values.reverse, post value :=
  fun value hvalue => h value (List.mem_reverse.1 hvalue)

private theorem makes_afterElement {elements : List α} (closer : String) (h : ∀ value ∈ elements, post value) :
    Makes source (afterElement closer elements)
      (Turn.Upholds (fun elements => ∀ value ∈ elements, post value)
        fun values => ∀ value ∈ values, post value) := by
  refine Makes.after fun token => makes_ite (fun _ => ?_) fun _ => makes_ite (fun _ => ?_) fun _ => ?_
  · exact Makes.after fun _ => makes_pure h
  · exact Makes.after fun _ => makes_pure (forall_mem_reverse h)
  · exact Makes.after fun _ => makes_pure (forall_mem_reverse h)

theorem makes_bracketed (closer : String) (h : Makes source element post) :
    Makes source (bracketed closer element) fun values => ∀ value ∈ values, post value := by
  refine makes_repeating (fun elements => ∀ value ∈ elements, post value) (by simp) fun elements hinv => ?_
  refine Makes.after fun found => makes_ite (fun _ => makes_pure (forall_mem_reverse hinv)) fun _ => ?_
  refine (makes_recover h).bind fun value hvalue => ?_
  cases value with
  | none => exact makes_afterElement closer hinv
  | some value => exact makes_afterElement closer (List.forall_mem_cons.2 ⟨hvalue value rfl, hinv⟩)

theorem makes_commaSeparated (ends : Token → Bool) (h : Makes source element post) :
    Makes source (commaSeparated ends element) fun values => ∀ value ∈ values, post value := by
  refine makes_repeating (fun elements => ∀ value ∈ elements, post value) (by simp) fun elements hinv => ?_
  refine Makes.after fun ended => makes_ite (fun _ => makes_pure (forall_mem_reverse hinv)) fun _ => ?_
  refine h.bind fun value hvalue => ?_
  have hmore := List.forall_mem_cons.2 ⟨hvalue, hinv⟩
  exact Makes.after fun found =>
    makes_ite (fun _ => makes_pure hmore) fun _ => makes_pure (forall_mem_reverse hmore)

theorem makes_enclosed (closer : String) (h : Makes source element post) :
    Makes source (enclosed closer element) fun values => ∀ value ∈ values, post value :=
  (makes_commaSeparated _ h).bind fun _ hvalues => Makes.after fun _ => makes_pure hvalues

theorem makes_manyWhile (test : Token → Bool) (h : Makes source element post) :
    Makes source (manyWhile test element) fun values => ∀ value ∈ values, post value := by
  refine makes_repeating (fun elements => ∀ value ∈ elements, post value) (by simp) fun elements hinv => ?_
  refine Makes.after fun found => makes_ite (fun _ => ?_) fun _ => makes_pure (forall_mem_reverse hinv)
  exact h.bind fun value hvalue => makes_pure (List.forall_mem_cons.2 ⟨hvalue, hinv⟩)

end CaretContext.Php
