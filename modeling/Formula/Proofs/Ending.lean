import Formula.Proofs.Place
import Formula.Proofs.Reads

/-!
# Where reading ends

An error is reported at a token, and the cursor afterwards stands before or after that token
(`ErrorAt`). It stands before it if the token was only looked at: if it is the end of an empty
text, if a level is missing, or if it starts an argument too many. A phrase that is read ends
after its last token (`Phrase.Ends`), which is no comma.
-/

namespace Formula

open Except (ok error)

theorem Token.span_refuse (token : Token) (fault : Fault) :
    (token.refuse fault).span = token.span := by
  unfold refuse
  split <;> rfl

theorem Token.refuse_of_kind {token : Token} {kind : Token.Kind} (h : token.kind = kind)
    (valid : ∀ own, kind ≠ .invalid own) (fault : Fault) :
    token.refuse fault = ⟨fault, token.span⟩ := by
  unfold refuse
  split
  · rename_i own invalid
    exact absurd (h.symm.trans invalid) (valid own)
  · rfl

/-- Whether a fault is that a token cannot stand where it is. -/
def Fault.isRefusal : Fault → Bool
  | unexpectedToken | unboundName | unmatchedParen | trailingInput | malformedNumber => true
  | argumentCount | emptyExpression | textTooLong | nestingTooDeep => false

/-- An error at the token that comes after `k` others, and the cursor after it. -/
inductive ErrorAt (c : Cursor) : Nat → Diagnostic → Cursor → Prop where
  /-- Nothing can be read from the token on, and it is left. -/
  | left (k : Nat) (fault : Fault) : fault = .nestingTooDeep ∨ fault = .emptyExpression →
      ErrorAt c k ⟨fault, (c.nth k).span⟩ (c.skip k).peek.2
  /-- The token starts an argument too many and is left. -/
  | surplus (k : Nat) : (c.nth k).kind = .comma ∨ (c.nth (k + 1)).kind ≠ .closeParen →
      ErrorAt c (k + 1) ⟨.argumentCount, (c.nth (k + 1)).span⟩ (c.skip (k + 1)).peek.2
  /-- The token ends a call that lacks arguments. -/
  | missing (k : Nat) : (c.nth k).kind ≠ .comma → (c.nth (k + 1)).kind = .closeParen →
      ErrorAt c (k + 1) ⟨.argumentCount, (c.nth (k + 1)).span⟩ (c.skip (k + 2))
  /-- The token cannot stand where it is. -/
  | refused (k : Nat) (fault : Fault) : fault.isRefusal = true →
      ErrorAt c k ((c.nth k).refuse fault) (c.skip (k + 1))

namespace ErrorAt

variable {c middle last : Cursor} {k m : Nat} {d : Diagnostic}

theorem span (h : ErrorAt c k d last) : d.span = (c.nth k).span := by
  cases h with
  | left | surplus | missing => rfl
  | refused k fault => exact Token.span_refuse _ fault

/-- An error after some tokens that were taken. -/
theorem after (h : ErrorAt middle k d last) (hm : c.Past m middle) : ErrorAt c (m + k) d last := by
  cases h with
  | left k fault cause =>
    rw [hm.nth_eq, (hm.trans (.inl rfl)).peek_eq]
    exact left (m + k) fault cause
  | surplus k start =>
    rw [hm.nth_eq, hm.nth_eq] at start
    rw [hm.nth_eq, hm.skip_eq, ← Nat.add_assoc]
    exact surplus (m + k) start
  | missing k part close =>
    rw [hm.nth_eq] at part close
    rw [hm.nth_eq, hm.skip_eq, ← Nat.add_assoc]
    exact missing (m + k) part close
  | refused k fault refusal =>
    rw [hm.nth_eq, hm.skip_eq]
    exact refused (m + k) fault refusal

theorem next (h : ErrorAt c.next.2 k d last) : ErrorAt c (1 + k) d last :=
  h.after (.next c)

/-- A token of a kind that is some token's is refused for what it is. -/
theorem refused_of_kind {fault : Fault} {kind : Token.Kind} (h : c.next.1.kind = kind)
    (valid : ∀ own, kind ≠ .invalid own)
    (refusal : fault.isRefusal = true) :
    ErrorAt c 0 ⟨fault, c.next.1.span⟩ c.next.2 := by
  rw [← Token.refuse_of_kind h valid]
  exact refused 0 fault refusal

/-- What was scanned ends with the token at which the error is. -/
theorem position_eq (h : ErrorAt c k d last) (waiting : c.waiting = none) :
    last.position = d.span.stop := by
  rw [h.span]
  cases h with
  | left k => exact Cursor.position_peek (Cursor.waiting_skip waiting k)
  | surplus k => exact Cursor.position_peek (Cursor.waiting_skip waiting (k + 1))
  | missing k =>
    rw [← Cursor.next_skip c (k + 1)]
    exact Cursor.position_next (Cursor.waiting_skip waiting (k + 1))
  | refused k =>
    rw [← Cursor.next_skip c k]
    exact Cursor.position_next (Cursor.waiting_skip waiting k)

theorem past (h : ErrorAt c k d last) : ∃ m, c.Past m last := by
  cases h with
  | left => exact ⟨_, .inr rfl⟩
  | surplus => exact ⟨_, .inr rfl⟩
  | missing => exact ⟨_, .inl rfl⟩
  | refused => exact ⟨_, .inl rfl⟩

end ErrorAt

/-- Some tokens come before a place, and the last of them is no comma. -/
def Cursor.Closes (c : Cursor) (k : Nat) : Prop :=
  ∃ j, k = j + 1 ∧ (c.nth j).kind ≠ .comma

theorem Cursor.Closes.after {c middle : Cursor} {k m : Nat} (h : middle.Closes k)
    (hm : c.Past m middle) : c.Closes (m + k) := by
  obtain ⟨j, rfl, part⟩ := h
  exact ⟨m + j, rfl, by rwa [← hm.nth_eq]⟩

/-- A token that is taken and is no comma. -/
theorem Cursor.Past.close {c middle : Cursor} {m : Nat} {kind : Token.Kind}
    (hm : c.Past m middle) (h : middle.next.1.kind = kind) (hk : kind ≠ .comma) :
    c.Past (m + 1) middle.next.2 ∧ c.Closes (m + 1) := by
  rw [hm.first_eq] at h
  exact ⟨hm.trans (.next middle), m, rfl, by rwa [h]⟩

namespace Phrase

/-- Where the cursor is after a value. The closing parenthesis comes after the arguments. -/
def Ended (c : Cursor) (k : Nat) : (phrase : Phrase) → phrase.Answer → Cursor → Prop
  | expr _ _, _, last => c.Past k last ∧ c.Closes k
  | operand _, _, last => c.Past k last ∧ c.Closes k
  | steps _ _, _, last => c.Past k last ∧ (k = 0 ∨ c.Closes k)
  | call _ _ _, _, last => c.Past k last ∧ c.Closes k
  | args _ _ _, (_, close), last =>
    last = c.skip (k + 1) ∧ c.Closes k ∧ (c.nth k).kind = .closeParen ∧ close = (c.nth k).span

/-- Where the cursor is after an answer: for a value after `k` tokens, for an error where
`ErrorAt` says. -/
def Ends (phrase : Phrase) (c : Cursor) (k : Nat) :
    Except Diagnostic phrase.Answer → Cursor → Prop
  | ok value, last => phrase.Ended c k value last
  | error d, last => ErrorAt c k d last

namespace Ends

variable {c middle after last : Cursor} {j k m levels least count : Nat} {d : Diagnostic}
  {arity : Arity} {func : Func} {name close : Span} {list : List Expr} {first inner e : Expr}

/-- The answer for a phrase is had from that for a part of it, which comes after some tokens. -/
theorem map {phrase part : Phrase} {answer : Except Diagnostic part.Answer}
    (h : part.Ends middle k answer last) (hm : c.Past m middle) (φ : part.Answer → phrase.Answer)
    (hφ : ∀ value, part.Ended middle k value last → phrase.Ended c (m + k) (φ value) last) :
    phrase.Ends c (m + k) (answer.map φ) last := by
  cases answer with
  | error => exact ErrorAt.after h hm
  | ok value => exact hφ value h

/-- A token after a part is refused. -/
theorem refused {phrase : Phrase} {fault : Fault} (hm : c.Past m middle)
    (refusal : fault.isRefusal = true) :
    phrase.Ends c m (error (middle.next.1.refuse fault)) middle.next.2 :=
  (ErrorAt.refused 0 fault refusal).after hm

theorem expr {answer : Except Diagnostic (List (Step Expr))}
    (h : (operand levels).Ends c m (ok first) middle)
    (hs : (steps levels least).Ends middle k answer last) :
    (Phrase.expr (levels + 1) least).Ends c (m + k) (answer.map first.chain) last := by
  refine hs.map h.1 _ fun _ ended => ⟨h.1.trans ended.1, ?_⟩
  obtain rfl | closes := ended.2
  · exact h.2
  · exact closes.after h.1

theorem token {kind : Token.Kind} (h : c.next.1.kind = kind) (hk : kind ≠ .comma) :
    (operand levels).Ends c 1 (ok e) c.next.2 :=
  (Cursor.Past.zero c).close h hk

theorem function {answer : Except Diagnostic Expr}
    (h : (Phrase.call levels func name).Ends c.next.2 k answer last) :
    (operand levels).Ends c (1 + k) answer last := by
  cases answer with
  | error => exact ErrorAt.next h
  | ok => exact ⟨(Cursor.Past.next c).trans h.1, h.2.after (.next c)⟩

theorem paren (h : (Phrase.expr levels 0).Ends c.next.2 k (ok inner) middle)
    (kind : middle.next.1.kind = .closeParen) :
    (operand levels).Ends c (1 + k + 1) (ok e) middle.next.2 :=
  ((Cursor.Past.next c).trans h.1).close kind (by simp)

theorem sign {answer : Except Diagnostic Expr} (φ : Expr → Expr)
    (h : (Phrase.expr levels least).Ends c.next.2 k answer last) :
    (operand levels).Ends c (1 + k) (answer.map φ) last :=
  map h (.next c) _ fun _ ended =>
    ⟨(Cursor.Past.next c).trans ended.1, ended.2.after (.next c)⟩

theorem step {answer : Except Diagnostic (List (Step Expr))} (φ : Step Expr)
    (h : (Phrase.expr levels m).Ends c.next.2 j (ok first) middle)
    (hs : (steps levels least).Ends middle k answer last) :
    (steps levels least).Ends c (1 + j + k) (answer.map (φ :: ·)) last := by
  have taken := (Cursor.Past.next c).trans h.1
  refine hs.map taken _ fun _ ended => ⟨taken.trans ended.1, .inr ?_⟩
  obtain rfl | closes := ended.2
  · exact h.2.after (.next c)
  · exact closes.after taken

theorem callEmpty (h : c.next.2.next.1.kind = .closeParen) :
    (Phrase.call levels func name).Ends c 2 (ok e) c.next.2.next.2 :=
  (Cursor.Past.next c).close h (by simp)

theorem call (h : (args levels arity count).Ends c.next.2.peek.2 k (ok (list, close)) last) :
    (Phrase.call levels func name).Ends c (1 + k + 1) (ok e) last := by
  obtain ⟨rfl, -, kind, -⟩ := h
  have inside : c.Past 1 c.next.2.peek.2 := .inr rfl
  rw [← Cursor.next_skip]
  exact (inside.trans (.inl rfl)).close kind (by simp)

theorem callTooFew
    (h : (args levels arity count).Ends c.next.2.peek.2 k (ok (list, close)) last) :
    (Phrase.call levels func name).Ends c (1 + k) (error ⟨.argumentCount, close⟩) last := by
  obtain ⟨rfl, ⟨j, rfl, part⟩, kind, rfl⟩ := h
  exact (ErrorAt.missing j part kind).after (.inr rfl)

theorem argSurplus (h : (Phrase.expr levels 0).Ends c k (ok e) after)
    (comma : after.next.1.kind = .comma) :
    (args levels arity count).Ends c (k + 1)
      (error ⟨.argumentCount, after.next.2.next.1.span⟩) after.next.2.peek.2 :=
  (ErrorAt.surplus 0 (.inl comma)).after h.1

theorem arg {answer : Except Diagnostic (List Expr × Span)}
    (h : (Phrase.expr levels 0).Ends c m (ok e) after)
    (hs : (args levels arity (count + 1)).Ends after.next.2 k answer last) :
    (args levels arity count).Ends c (m + 1 + k)
      (answer.map fun rest => (e :: rest.1, rest.2)) last := by
  have taken := h.1.trans (.next after)
  refine hs.map taken _ fun _ ended => ?_
  obtain ⟨rfl, closes, kind, close⟩ := ended
  rw [taken.nth_eq] at kind close
  exact ⟨taken.skip_eq k, closes.after taken, kind, close⟩

theorem argLast (h : (Phrase.expr levels 0).Ends c k (ok e) after)
    (close : after.next.1.kind = .closeParen) :
    (args levels arity count).Ends c k (ok ([e], after.next.1.span)) after.next.2 := by
  rw [h.1.first_eq] at close
  exact ⟨h.1.skip_eq 0, h.2, close, congrArg Token.span h.1.first_eq⟩

end Ends

end Phrase

end Formula
