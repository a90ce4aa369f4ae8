import Formula.Proofs.Parses
import Formula.Proofs.Substitution

/-!
# Reading in another scope

What is read depends on a scope only through what the names of the text stand for. If in another
scope they stand for the same, but for numbers in the place of variables that are known, the same
is read, with these numbers in it (`Reads.rebind`).
-/

namespace Formula

open Except (ok error)

/-- What a name stands for when the variable it may be is known. -/
def Binding.subst (known : Known) (name : String) : Binding → Binding
  | cell c => (known name c).elim (.cell c) .constant
  | constant value => .constant value
  | function primitive => .function primitive

/-- If the token is a name, it stands in the second scope for what it stands for in the first,
with a number for a variable that is known. -/
def Token.Rebound (known : Known) (scope scope' : Scope) (token : Token) : Prop :=
  token.kind = .name →
    scope'.resolve token.text = (scope.resolve token.text).map (Binding.subst known token.text)

/-- A value of a phrase with numbers for the variables that are known. -/
def Phrase.subst (known : Known) : (phrase : Phrase) → phrase.Answer → phrase.Answer
  | expr _ _, e => e.subst known
  | operand _, e => e.subst known
  | steps _ _, run => Expr.substSteps known run
  | call _ _ _, e => e.subst known
  | args _ _ _, (list, close) => (Expr.substArgs known list, close)

section

variable {known : Known} {scope scope' : Scope}

/-- Reading goes the same way in the other scope. -/
theorem Reads.rebind {phrase : Phrase} {c last : Cursor} {answer : Except Diagnostic phrase.Answer}
    (h : Reads scope phrase c answer last) (names : c.All (Token.Rebound known scope scope')) :
    Reads scope' phrase c (answer.map (phrase.subst known)) last := by
  induction h with
  | tooDeep => exact .tooDeep
  | exprFails _ ih => exact .exprFails (ih names)
  | @expr _ _ _ _ _ first answer reads _ ih₁ ih₂ =>
    obtain ⟨k, taken, -⟩ := reads.ends
    have again := Reads.expr (ih₁ names) (ih₂ (names.past taken))
    cases answer with
    | error => exact again
    | ok steps =>
      simp only [Except.map, Phrase.subst, Expr.subst_chain] at again ⊢
      exact again
  | number kind => exact .number kind
  | unbound kind found =>
    have bound := names.first kind
    rw [found] at bound
    exact .unbound kind bound
  | @var _ c cell kind found =>
    have bound := names.first kind
    rw [found] at bound
    simp only [Except.map, Phrase.subst, Expr.subst]
    simp only [Option.map, Binding.subst] at bound
    cases value : known c.next.1.text cell with
    | none =>
      rw [value] at bound
      exact .var kind bound
    | some value' =>
      rw [value] at bound
      exact .constant kind bound
  | constant kind found =>
    have bound := names.first kind
    rw [found] at bound
    exact .constant kind bound
  | @function _ _ _ _ answer kind found _ ih =>
    have bound := names.first kind
    rw [found] at bound
    have again := Reads.function kind bound (ih names.next)
    cases answer with
    | error => exact again
    | ok => exact again
  | parenFails kind _ ih => exact .parenFails kind (ih names.next)
  | paren kind _ close ih =>
    have again := Reads.paren kind (ih names.next) close
    simp only [Except.map, Phrase.subst, Expr.subst_withSpan]
    exact again
  | parenOpen kind _ unclosed ih => exact .parenOpen kind (ih names.next) unclosed
  | @minus _ _ _ answer kind _ ih =>
    have again := Reads.minus kind (ih names.next)
    cases answer with
    | error => exact again
    | ok =>
      simp only [Except.map, Phrase.subst, Expr.span_subst] at again
      exact again
  | @plus _ _ _ answer kind _ ih =>
    have again := Reads.plus kind (ih names.next)
    cases answer with
    | error => exact again
    | ok =>
      simp only [Except.map, Phrase.subst, Expr.span_subst, Expr.subst_withSpan] at again ⊢
      exact again
  | closed kind => exact .closed kind
  | noOperand starts closed => exact .noOperand starts closed
  | stop weak => exact .stop weak
  | stepFails kind strong _ ih => exact .stepFails kind strong (ih names.next)
  | @step _ _ _ _ _ _ _ answer kind strong reads _ ih₁ ih₂ =>
    obtain ⟨k, taken, -⟩ := reads.ends
    have again := Reads.step kind strong (ih₁ names.next) (ih₂ (names.next.past taken))
    cases answer with
    | error => exact again
    | ok => exact again
  | callUnopened unopened => exact .callUnopened unopened
  | callEmpty opening closing accepted => exact .callEmpty opening closing accepted
  | callMissing opening closing missing => exact .callMissing opening closing missing
  | callSurplus opening more none => exact .callSurplus opening more none
  | callFails opening more some _ ih =>
    exact .callFails opening more some (ih (names.next.past (.peek _)))
  | call opening more some _ accepted ih =>
    refine .call opening more some (ih (names.next.past (.peek _))) ?_
    rwa [Expr.length_substArgs]
  | callTooFew opening more some _ missing ih =>
    refine .callTooFew opening more some (ih (names.next.past (.peek _))) ?_
    rwa [Expr.length_substArgs]
  | argFails _ ih => exact .argFails (ih names)
  | argSurplus _ comma most ih => exact .argSurplus (ih names) comma most
  | @arg _ _ _ _ _ _ _ answer reads comma most _ ih₁ ih₂ =>
    obtain ⟨k, taken, -⟩ := reads.ends
    have again := Reads.arg (ih₁ names) comma most (ih₂ (names.past taken).next)
    cases answer with
    | error => exact again
    | ok => exact again
  | argLast _ close ih => exact .argLast (ih names) close
  | argOpen _ comma close ih => exact .argOpen (ih names) comma close

theorem Parses.rebind {levels : Nat} {c : Cursor} {answer : Except Diagnostic Expr} {q : Parser}
    (h : Parses scope levels c answer q) (names : c.All (Token.Rebound known scope scope')) :
    Parses scope' levels c (answer.map (Expr.subst known)) q := by
  have names' := names.past (.peek c)
  cases h with
  | empty finish => exact .empty finish
  | fails more reads => exact .fails more (reads.rebind names')
  | whole more reads finish => exact .whole more (reads.rebind names') finish
  | more more reads follows => exact .more more (reads.rebind names') follows

/-- A text whose names stand for the same stands for the same expression. -/
theorem parse_rebind {source : String}
    (names : ∀ token ∈ tokens source, token.Rebound known scope scope') (maxLevels : Nat) :
    parse scope' maxLevels source = (parse scope maxLevels source).map (Expr.subst known) := by
  have all : (Cursor.ofString source).All (Token.Rebound known scope scope') :=
    Cursor.all_ofString names fun token finish name => by
      rw [Token.isFinish_of_kind name] at finish
      cases finish
  obtain ⟨answer, q, parses⟩ := exists_parses scope maxLevels (.ofString source)
  rw [parses.parse_ofString]
  exact (parses.rebind all).parse_ofString

end

end Formula
