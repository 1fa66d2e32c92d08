import CaretContext.Proofs.InnermostCall
import CaretContext.Proofs.TreeShape
import Mathlib.Data.List.Chain
import Mathlib.Order.Bounds.Basic

/-!
# The argument slot

The slot of a caret is a count: all arguments that it is past. Between arguments that come in order, with
at least one byte from each to the next, those it is past are the first ones, so the count is the number
of the first argument that the caret is not past. A caret on the byte behind an argument still belongs to
it, and never to the next one.
-/

namespace CaretContext

/-- Whether no argument is empty and each ends before the next starts, with a byte between them. -/
structure AreSeparated (arguments : List Node) : Prop where
  nonempty : ∀ a ∈ arguments, a.span.start < a.span.stop
  apart : arguments.IsChain fun a b => a.span.stop < b.span.start

/-- The sum, unless it is too large for a word of 32 bits. -/
def wordAdd? (m n : Nat) : Option Nat := if m + n < UInt32.size then some (m + n) else none

/-- The count of the arguments that the caret is past, where the byte behind each is found by an addition
in words of 32 bits. The last byte of a span needs no such test, as it is never beyond both ends. -/
def wordArgumentIndex? (offset : Nat) : List Node → Option Nat
  | [] => some 0
  | a :: arguments =>
    (wordAdd? a.span.last 1).bind fun behind =>
      (wordArgumentIndex? offset arguments).map fun later =>
        if behind < offset then later + 1 else later

section Slot

variable {arguments : List Node} {a : Node} {offset k : Nat}

private theorem last_succ_of_lt {s : Span} (h : s.start < s.stop) : s.last + 1 = s.stop := by
  rw [Span.last_of_lt h]
  omega

private theorem AreSeparated.tail (h : AreSeparated (a :: arguments)) : AreSeparated arguments :=
  ⟨fun b hb => h.nonempty b (List.mem_cons_of_mem a hb), h.apart.tail⟩

private theorem AreSeparated.stop_lt_start (h : AreSeparated (a :: arguments)) :
    ∀ b ∈ arguments, a.span.stop < b.span.start := by
  induction arguments generalizing a with
  | nil => simp
  | cons c arguments ih =>
    have hnext : a.span.stop < c.span.start := (List.isChain_cons_cons.1 h.apart).1
    have hnonempty := h.nonempty c (by simp)
    intro b hb
    rcases List.mem_cons.1 hb with rfl | hb
    · exact hnext
    · have hlater := ih h.tail b hb
      omega

private theorem argumentIndex_cons (h : a.span.start < a.span.stop) :
    argumentIndex (a :: arguments) offset =
      argumentIndex arguments offset + if a.span.stop < offset then 1 else 0 := by
  simp [argumentIndex, List.countP_cons, last_succ_of_lt h]

private theorem AreSeparated.argumentIndex_eq_zero (h : AreSeparated (a :: arguments))
    (hoffset : offset ≤ a.span.stop) : argumentIndex arguments offset = 0 := by
  rw [argumentIndex, List.countP_eq_zero]
  intro b hb
  have hstart := h.stop_lt_start b hb
  have hnonempty := h.nonempty b (List.mem_cons_of_mem a hb)
  rw [last_succ_of_lt hnonempty, decide_eq_true_eq]
  omega

private theorem AreSeparated.argumentIndex_le_iff (h : AreSeparated arguments) (hk : arguments[k]? = some a) :
    argumentIndex arguments offset ≤ k ↔ offset ≤ a.span.stop := by
  induction arguments generalizing k with
  | nil => simp at hk
  | cons b arguments ih =>
    have hb := h.nonempty b List.mem_cons_self
    rw [argumentIndex_cons hb]
    cases k with
    | zero =>
      obtain rfl : b = a := by simpa using hk
      constructor
      · intro hzero
        by_contra hpast
        rw [if_pos (by omega)] at hzero
        omega
      · intro hoffset
        rw [h.argumentIndex_eq_zero hoffset, if_neg (by omega)]
    | succ k =>
      have hk : arguments[k]? = some a := by simpa using hk
      have hlater := h.stop_lt_start a (List.mem_of_getElem? hk)
      have ha := h.tail.nonempty a (List.mem_of_getElem? hk)
      have hrest := ih h.tail hk
      by_cases hpast : b.span.stop < offset
      · rw [if_pos hpast]
        omega
      · rw [if_neg hpast, h.argumentIndex_eq_zero (by omega)]
        omega

private theorem argumentIndex_le_length : argumentIndex arguments offset ≤ arguments.length :=
  List.countP_le_length

/-- The slot is the number of the first argument that the caret is not past, or that of all arguments
when there is none. -/
theorem AreSeparated.isLeast_argumentIndex (h : AreSeparated arguments) (offset : Nat) :
    IsLeast {i | i = arguments.length ∨ ∃ a, arguments[i]? = some a ∧ offset ≤ a.span.stop}
      (argumentIndex arguments offset) := by
  constructor
  · by_cases hall : argumentIndex arguments offset = arguments.length
    · exact .inl hall
    · have hlt : argumentIndex arguments offset < arguments.length :=
        Nat.lt_of_le_of_ne argumentIndex_le_length hall
      have hfirst := List.getElem?_eq_getElem hlt
      exact .inr ⟨_, hfirst, (h.argumentIndex_le_iff hfirst).1 (Nat.le_refl _)⟩
  · rintro i (rfl | ⟨a, ha, hoffset⟩)
    · exact argumentIndex_le_length
    · exact (h.argumentIndex_le_iff ha).2 hoffset

private theorem monotone_argumentIndex (arguments : List Node) : Monotone (argumentIndex arguments) := by
  intro offset offset' hle
  apply List.countP_mono_left
  intro a _ hpast
  simp only [decide_eq_true_eq] at hpast ⊢
  omega

private theorem AreSeparated.argumentIndex_eq (h : AreSeparated arguments) (hk : arguments[k]? = some a)
    (hstart : a.span.start ≤ offset) (hstop : offset ≤ a.span.stop) :
    argumentIndex arguments offset = k := by
  refine Nat.le_antisymm ((h.argumentIndex_le_iff hk).2 hstop) ?_
  cases k with
  | zero => exact Nat.zero_le _
  | succ k =>
    -- The argument in front of this one ends before it, so the caret is past that one.
    have hlt : k < arguments.length := by
      have hlength := (List.getElem?_eq_some_iff.1 hk).1
      omega
    have hbefore := List.getElem?_eq_getElem hlt
    have hapart := List.isChain_iff_getElem.1 h.apart k (List.getElem?_eq_some_iff.1 hk).1
    rw [(List.getElem?_eq_some_iff.1 hk).2] at hapart
    by_contra hsmall
    have hsmall : argumentIndex arguments offset ≤ k := by omega
    have hnotPast := (h.argumentIndex_le_iff hbefore).1 hsmall
    omega

private theorem AreSeparated.wordArgumentIndex?_eq (h : AreSeparated arguments)
    (hword : ∀ a ∈ arguments, a.span.stop < UInt32.size) (offset : Nat) :
    wordArgumentIndex? offset arguments = some (argumentIndex arguments offset) := by
  induction arguments with
  | nil => rfl
  | cons a arguments ih =>
    have ha := h.nonempty a List.mem_cons_self
    have hbehind : wordAdd? a.span.last 1 = some a.span.stop := by
      rw [wordAdd?, last_succ_of_lt ha, if_pos (hword a List.mem_cons_self)]
    have hlater := ih h.tail fun b hb => hword b (List.mem_cons_of_mem a hb)
    rw [wordArgumentIndex?, hbehind, hlater, argumentIndex_cons ha]
    by_cases hpast : a.span.stop < offset <;> simp [hpast]

end Slot

/-- Where the innermost call has arguments, it is described with their slot, unless it has a dynamic
member that is not found in the text. -/
theorem resolveInvocation_argumentIndex {roots : List Node} {offset : Nat} {call a : Node} {k : Nat}
    (hcall : innermostCall? roots offset = some call) (ha : call.kind.arguments[k]? = some a)
    (source : Source) (skipComments : Bool) :
    (∃ invocation, resolveInvocation roots source offset skipComments = .ok (some invocation) ∧
      invocation.argumentIndex = argumentIndex call.kind.arguments offset) ∨
    ∃ cause receiver operator text value,
      resolveInvocation roots source offset skipComments = .error cause ∧
      call.kind = .methodCall receiver operator (.expression text value) call.kind.arguments := by
  cases hanswer : resolveInvocation roots source offset skipComments with
  | error cause =>
    obtain ⟨c, receiver, operator, text, value, arguments, hc, hkind, -⟩ :=
      resolveInvocation_error hanswer
    obtain rfl : call = c := Option.some.inj (hcall.symm.trans hc)
    refine .inr ⟨cause, receiver, operator, text, value, rfl, ?_⟩
    rw [hkind, Kind.arguments]
  | ok answer =>
    have hisCall : ∀ c, innermostCall? roots offset = some c → c.kind.isCall = true := by
      intro c hc
      obtain rfl : call = c := Option.some.inj (hcall.symm.trans hc)
      cases hkind : call.kind <;> simp [hkind, Kind.arguments, Kind.isCall] at ha ⊢
    cases answer with
    | none =>
      have hnone := (resolveInvocation_eq_ok_none_iff _ _ _ _ hisCall).1 hanswer
      rw [hcall] at hnone
      exact absurd hnone (Option.some_ne_none call)
    | some invocation =>
      refine .inl ⟨invocation, rfl, ?_⟩
      obtain ⟨c, hc, hdescribed⟩ := resolveInvocation_eq_ok_some hanswer
      obtain rfl : call = c := Option.some.inj (hcall.symm.trans hc)
      rcases hdescribed with ⟨callee, arguments, name, hkind, -, rfl⟩ |
        ⟨receiver, operator, member, arguments, start, hkind, -, rfl⟩
      · rw [hkind, Kind.arguments]
      · rw [hkind, Kind.arguments]

/-- Between arguments with at least a byte from each to the next, the slot of the caret is the number of
the first argument that ends at the caret or behind it, or that of all when there is none; and counting in
words of 32 bits does not overflow. So the slot grows with the offset, and it is `k` on argument `k` and
on the byte behind it. A call is reported with that slot when the caret is on its argument `k`, unless the
call has a dynamic member that is not found in the text. -/
theorem argumentIndex_of_areSeparated {arguments : List Node} (h : AreSeparated arguments) :
    (∀ offset, (∀ a ∈ arguments, a.span.stop < UInt32.size) →
      wordArgumentIndex? offset arguments = some (argumentIndex arguments offset)) ∧
    (∀ offset, IsLeast {i | i = arguments.length ∨ ∃ a, arguments[i]? = some a ∧ offset ≤ a.span.stop}
      (argumentIndex arguments offset)) ∧
    Monotone (argumentIndex arguments) ∧
    (∀ offset, argumentIndex arguments offset ≤ arguments.length) ∧
    (∀ k a offset, arguments[k]? = some a → a.span.Contains offset ∨ offset = a.span.stop →
      argumentIndex arguments offset = k) ∧
    (∀ k a offset roots source skipComments call, arguments[k]? = some a → a.span.Contains offset →
      innermostCall? roots offset = some call → call.kind.arguments = arguments →
      (∃ invocation, resolveInvocation roots source offset skipComments = .ok (some invocation) ∧
        invocation.argumentIndex = k) ∨
      ∃ cause receiver operator text value,
        resolveInvocation roots source offset skipComments = .error cause ∧
        call.kind = .methodCall receiver operator (.expression text value) arguments) := by
  have hslot : ∀ k a offset, arguments[k]? = some a → a.span.Contains offset ∨ offset = a.span.stop →
      argumentIndex arguments offset = k := by
    intro k a offset hk hoffset
    have hnonempty := h.nonempty a (List.mem_of_getElem? hk)
    have hlast := last_succ_of_lt hnonempty
    rcases hoffset with ⟨hstart, hle⟩ | rfl
    · exact h.argumentIndex_eq hk hstart (by omega)
    · exact h.argumentIndex_eq hk (by omega) (Nat.le_refl _)
  refine ⟨fun offset hword => h.wordArgumentIndex?_eq hword offset, h.isLeast_argumentIndex,
    monotone_argumentIndex arguments, fun offset => argumentIndex_le_length, hslot, ?_⟩
  rintro k a offset roots source skipComments call hk hoffset hcall rfl
  rcases resolveInvocation_argumentIndex hcall hk source skipComments with
    ⟨invocation, hok, hindex⟩ | herror
  · exact .inl ⟨invocation, hok, hindex.trans (hslot k a offset hk (.inl hoffset))⟩
  · exact .inr herror

/-- The call `f(1, 2)`, the second of whose arguments ends at the largest offset of 32 bits. -/
def farCall : Node :=
  ⟨.functionCall ⟨.identifier "f", ⟨0, 1⟩, []⟩
    [⟨.glue .argument, ⟨2, 3⟩, []⟩, ⟨.glue .argument, ⟨4294967294, 4294967295⟩, []⟩], ⟨0, 4294967295⟩, []⟩

private theorem areSeparated_farCall : AreSeparated farCall.kind.arguments :=
  ⟨by simp [farCall, Kind.arguments], by simp [farCall, Kind.arguments]⟩

private theorem innermostCall?_farCall : innermostCall? [farCall] 4294967294 = some farCall := by
  simp [innermostCall?, farCall, walk, callVisit, Pruning.skips, Span.Contains, Span.last, Kind.isCall,
    Node.children, Kind.nodes]

theorem argumentIndex_farCall :
    AreSeparated farCall.kind.arguments ∧ (∀ a ∈ farCall.kind.arguments, a.span.stop < UInt32.size) ∧
    wordArgumentIndex? 3 farCall.kind.arguments = some 0 ∧
    innermostCall? [farCall] 4294967294 = some farCall ∧
    ∃ invocation, resolveInvocation [farCall] ⟨[]⟩ 4294967294 true = .ok (some invocation) ∧
      invocation.argumentIndex = 1 := by
  obtain ⟨hword, -, -, -, hslot, hreported⟩ := argumentIndex_of_areSeparated areSeparated_farCall
  have hbound : ∀ a ∈ farCall.kind.arguments, a.span.stop < UInt32.size := by
    simp [farCall, Kind.arguments, UInt32.size]
  refine ⟨areSeparated_farCall, hbound, ?_, innermostCall?_farCall, ?_⟩
  · rw [hword 3 hbound, hslot 0 _ 3 rfl (.inr rfl)]
  · have hcontains : (⟨4294967294, 4294967295⟩ : Span).Contains 4294967294 := by decide
    rcases hreported 1 _ _ [farCall] ⟨[]⟩ true farCall rfl hcontains innermostCall?_farCall rfl with
      hinvocation | ⟨cause, receiver, operator, text, value, -, hkind⟩
    · exact hinvocation
    · cases hkind

end CaretContext
