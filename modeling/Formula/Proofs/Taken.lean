import Formula.Proofs.Reads

/-!
# The tokens of an expression

The tokens that are taken for an expression are its text: its span goes from the start of the
first of them to the end of the last (`Reads.takes`).
-/

namespace Formula

open Except (ok error)

/-- The byte at which the first of some tokens starts. -/
def startOf (ts : List Token) : Option Nat :=
  ts.head?.map fun token => token.span.start

/-- The byte at which the last of some tokens ends. -/
def stopOf (ts : List Token) : Option Nat :=
  ts.getLast?.map fun token => token.span.stop

section

variable {token : Token} {us vs : List Token} {byte : Nat}

theorem startOf_append (h : startOf us = some byte) (vs : List Token) :
    startOf (us ++ vs) = some byte := by
  obtain ⟨first, hf, rfl⟩ := Option.map_eq_some_iff.mp h
  rw [startOf, List.head?_append, hf]
  rfl

theorem stopOf_append (us vs : List Token) : stopOf (us ++ vs) = (stopOf vs).or (stopOf us) := by
  rw [stopOf, List.getLast?_append, Option.map_or]
  rfl

theorem stopOf_append_of_eq (us : List Token) (h : stopOf vs = some byte) :
    stopOf (us ++ vs) = some byte := by
  rw [stopOf_append, h, Option.some_or]

theorem stopOf_cons_of_eq (token : Token) (h : stopOf vs = some byte) :
    stopOf (token :: vs) = some byte :=
  stopOf_append_of_eq [token] h

theorem stopOf_concat (us : List Token) (token : Token) :
    stopOf (us ++ [token]) = some token.span.stop :=
  stopOf_append_of_eq us rfl

end

/-- Where the last operand of some steps ends. -/
def Step.stopOf (steps : List (Step Expr)) : Option Nat :=
  steps.getLast?.map fun step => step.operand.span.stop

theorem Step.stopOf_cons (step : Step Expr) (rest : List (Step Expr)) :
    stopOf (step :: rest) = (stopOf rest).or (some step.operand.span.stop) := by
  unfold stopOf
  rw [List.getLast?_cons]
  cases rest.getLast? <;> rfl

/-- A run goes from the start of its first operand to the end of its last. -/
theorem Expr.span_chain (first : Expr) (steps : List (Step Expr)) :
    (chain first steps).span =
      ⟨first.span.start, (Step.stopOf steps).getD first.span.stop⟩ := by
  unfold chain Step.stopOf
  cases steps.getLast? <;> rfl

namespace Phrase

/-- Where the tokens that are taken for a value start and end. -/
def Covers (ts : List Token) : (phrase : Phrase) → phrase.Answer → Prop
  | expr _ _, e => startOf ts = some e.span.start ∧ stopOf ts = some e.span.stop
  | operand _, e => startOf ts = some e.span.start ∧ stopOf ts = some e.span.stop
  | steps _ _, run => stopOf ts = Step.stopOf run
  | call _ _ name, e => name.start = e.span.start ∧ stopOf ts = some e.span.stop
  | args _ _ _, (_, close) => stopOf ts = some close.stop

/-- What is said of an answer: a value covers the tokens that are taken for it. -/
def Takes (phrase : Phrase) (c : Cursor) (last : Cursor) :
    Except Diagnostic phrase.Answer → Prop
  | error _ => True
  | ok value => ∃ ts, c.ahead = ts ++ last.ahead ∧ phrase.Covers ts value

end Phrase

/-- Every value covers the tokens that are taken for it. -/
theorem Reads.takes {scope : Scope} {phrase : Phrase} {c last : Cursor}
    {answer : Except Diagnostic phrase.Answer} (h : Reads scope phrase c answer last) :
    phrase.Takes c last answer := by
  induction h with
  | tooDeep | exprFails | unbound | parenFails | parenOpen | closed | noOperand | stepFails
  | callUnopened | callMissing | callSurplus | callFails | callTooFew | argFails | argSurplus
  | argOpen => trivial
  | @expr _ _ _ _ _ first answer _ _ ih₁ ih₂ =>
    cases answer with
    | error => trivial
    | ok steps =>
      obtain ⟨us, e₁, start, stop⟩ := ih₁
      obtain ⟨vs, e₂, stop'⟩ := ih₂
      have span := Expr.span_chain first steps
      refine ⟨us ++ vs, by rw [e₁, e₂, List.append_assoc], ?_, ?_⟩
      · rw [startOf_append start, span]
      · rw [stopOf_append, stop, stop', span]
        cases Step.stopOf steps <;> rfl
  | @number _ c _ kind | @var _ c _ kind | @constant _ c _ kind =>
    exact ⟨[c.next.1], Cursor.ahead_of_kind kind rfl, rfl, rfl⟩
  | @function _ c _ _ answer kind _ _ ih =>
    cases answer with
    | error => trivial
    | ok =>
      obtain ⟨ts, e, start, stop⟩ := ih
      exact ⟨c.next.1 :: ts, Cursor.ahead_cons kind rfl e, congrArg some start,
        stopOf_cons_of_eq _ stop⟩
  | @paren _ c closing inner kind _ close ih =>
    obtain ⟨ts, e, -, -⟩ := ih
    have span := inner.span_withSpan (c.next.1.span.through closing.next.1.span)
    refine ⟨c.next.1 :: ts ++ [closing.next.1],
      Cursor.ahead_concat (Cursor.ahead_cons kind rfl e) close rfl, ?_, ?_⟩
    · rw [span]; rfl
    · rw [span, stopOf_concat]; rfl
  | @minus _ c _ answer kind _ ih =>
    cases answer with
    | error => trivial
    | ok operand =>
      obtain ⟨ts, e, -, stop⟩ := ih
      exact ⟨c.next.1 :: ts, Cursor.ahead_cons kind rfl e, rfl, stopOf_cons_of_eq _ stop⟩
  | @plus _ c _ answer kind _ ih =>
    cases answer with
    | error => trivial
    | ok operand =>
      obtain ⟨ts, e, -, stop⟩ := ih
      have span := operand.span_withSpan (c.next.1.span.through operand.span)
      refine ⟨c.next.1 :: ts, Cursor.ahead_cons kind rfl e, ?_, ?_⟩
      · rw [span]; rfl
      · rw [span]; exact stopOf_cons_of_eq _ stop
  | @stop _ _ c _ =>
    exact ⟨[], by rw [Cursor.ahead_peek]; rfl, rfl⟩
  | @step _ _ c _ _ _ operand answer kind _ _ _ ih₁ ih₂ =>
    cases answer with
    | error => trivial
    | ok steps =>
      obtain ⟨us, e₁, -, stop⟩ := ih₁
      obtain ⟨vs, e₂, stop'⟩ := ih₂
      refine ⟨c.next.1 :: us ++ vs, ?_, ?_⟩
      · rw [Cursor.ahead_cons kind rfl e₁, e₂, List.append_assoc]
      · exact (stopOf_append _ vs).trans
          (by rw [stop', stopOf_cons_of_eq _ stop, Step.stopOf_cons])
  | @callEmpty _ _ _ c opening closing =>
    refine ⟨[c.next.1, c.next.2.next.1], ?_, rfl, rfl⟩
    rw [Cursor.ahead_of_kind opening rfl, Cursor.ahead_of_kind closing rfl]
    rfl
  | @call _ _ _ _ c _ _ opening _ _ _ _ ih =>
    obtain ⟨ts, e, stop⟩ := ih
    rw [Cursor.ahead_peek] at e
    exact ⟨c.next.1 :: ts, Cursor.ahead_cons opening rfl e, rfl, stopOf_cons_of_eq _ stop⟩
  | @arg _ _ _ _ after _ _ answer _ comma _ _ ih₁ ih₂ =>
    cases answer with
    | error => trivial
    | ok =>
      obtain ⟨us, e₁, -, -⟩ := ih₁
      obtain ⟨vs, e₂, stop⟩ := ih₂
      refine ⟨us ++ after.next.1 :: vs, ?_, stopOf_append_of_eq us (stopOf_cons_of_eq _ stop)⟩
      rw [e₁, Cursor.ahead_cons comma rfl e₂, List.append_assoc]
  | @argLast _ _ _ _ after _ _ close ih =>
    obtain ⟨us, e, -, -⟩ := ih
    exact ⟨us ++ [after.next.1], Cursor.ahead_concat e close rfl, stopOf_concat us _⟩

end Formula
