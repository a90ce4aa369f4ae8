import Formula.Diagnostic
import Formula.Func
import Formula.Number.Exact
import Formula.Operator
import Formula.Store

/-!
# Expressions

A formula that has been read: names are resolved, and every part carries the span of
text it came from.

Operators that follow each other on one level are kept side by side in a *run*, which
is combined from left to right. A long chain such as `1 + 2 - 3 + …` is thus one node.
How tall an expression is depends on how deeply its text is nested, and not on how long
the text is: a level gives a run and a sign or a call below it at most, so the height is
less than twice the number of levels.

* `Expr.eval`: the value of an expression in a store.
* `Expr.size`: how many nodes an expression has.
* `Expr.induction`: what holds of an expression if it holds of its parts.
-/

namespace Formula

/-- An operator of a run with the operand on its right. -/
structure Step (α : Type) where
  op : Operator
  /-- Where the operator stands. -/
  span : Span
  operand : α

/-- A formula without names that stand for nothing. -/
inductive Expr where
  /-- A number, or a name bound to one. -/
  | literal (span : Span) (value : Float)
  /-- A name that reads a cell. -/
  | var (span : Span) (name : String) (cell : Cell)
  /-- The negative of an operand, and where its sign stands. -/
  | neg (span sign : Span) (operand : Expr)
  /-- Operands combined from left to right. -/
  | run (span : Span) (first : Expr) (steps : List (Step Expr))
  /-- A function at its arguments. -/
  | call (span : Span) (func : Func) (args : List Expr)

namespace Expr

/-- The text an expression came from. -/
def span : Expr → Span
  | literal span _ => span
  | var span _ _ => span
  | neg span _ _ => span
  | run span _ _ => span
  | call span _ _ => span

/-- The same expression, said to come from another stretch of text. -/
def withSpan (span : Span) : Expr → Expr
  | literal _ value => literal span value
  | var _ name cell => var span name cell
  | neg _ sign operand => neg span sign operand
  | run _ first steps => run span first steps
  | call _ func args => call span func args

/-- The value of an expression that is a number. -/
def literal? : Expr → Option Float
  | literal _ value => some value
  | _ => none

/-- An operand and what follows it on its level. One operand alone is no run. -/
def chain (first : Expr) (steps : List (Step Expr)) : Expr :=
  match steps.getLast? with
  | none => first
  | some last => run (first.span.through last.operand.span) first steps

mutual

/-- How many nodes an expression has. A run counts as one besides its operands. -/
def size : Expr → Nat
  | literal _ _ => 1
  | var _ _ _ => 1
  | neg _ _ operand => 1 + operand.size
  | run _ first steps => 1 + first.size + sizeSteps steps
  | call _ _ args => 1 + sizeArgs args
termination_by structural e => e

/-- How many nodes the operands of some steps have. -/
def sizeSteps : List (Step Expr) → Nat
  | [] => 0
  | ⟨_, _, operand⟩ :: rest => operand.size + sizeSteps rest
termination_by structural steps => steps

/-- How many nodes some arguments have. -/
def sizeArgs : List Expr → Nat
  | [] => 0
  | arg :: rest => arg.size + sizeArgs rest
termination_by structural args => args

end

mutual

/-- The value of an expression in a store. -/
def eval (store : Store) : Expr → Float
  | literal _ value => value
  | var _ _ cell => store cell
  | neg _ _ operand => -operand.eval store
  | run _ first steps => evalSteps store (first.eval store) steps
  | call _ func args => (func.value? (evalArgs store args)).getD Number.nan
termination_by structural e => e

/-- The value of a run from its value so far. -/
def evalSteps (store : Store) (value : Float) : List (Step Expr) → Float
  | [] => value
  | ⟨op, _, operand⟩ :: rest => evalSteps store (op.apply value (operand.eval store)) rest
termination_by structural steps => steps

/-- The values of arguments in their order. -/
def evalArgs (store : Store) : List Expr → List Float
  | [] => []
  | arg :: rest => arg.eval store :: evalArgs store rest
termination_by structural args => args

end

@[simp] theorem span_withSpan (span : Span) (e : Expr) : (e.withSpan span).span = span := by
  cases e <;> rfl

@[simp] theorem chain_nil (first : Expr) : chain first [] = first := rfl

/-- With a step after it, an operand starts a run. -/
theorem chain_cons (first : Expr) (step : Step Expr) (rest : List (Step Expr)) :
    ∃ span, chain first (step :: rest) = run span first (step :: rest) := by
  unfold chain
  rw [List.getLast?_cons]
  exact ⟨_, rfl⟩

theorem evalArgs_eq_map (store : Store) (args : List Expr) :
    evalArgs store args = args.map (eval store) := by
  induction args with
  | nil => rfl
  | cons arg rest ih => simp [evalArgs, ih]

/-- What holds of every expression whose parts it holds of, holds of all. -/
theorem induction {P : Expr → Prop}
    (literal : ∀ span value, P (.literal span value))
    (var : ∀ span name cell, P (.var span name cell))
    (neg : ∀ span sign operand, P operand → P (.neg span sign operand))
    (run : ∀ span first steps, P first → (∀ step ∈ steps, P step.operand) →
      P (.run span first steps))
    (call : ∀ span func args, (∀ arg ∈ args, P arg) → P (.call span func args)) :
    ∀ e, P e
  | .literal span value => literal span value
  | .var span name cell => var span name cell
  | .neg span sign operand =>
    neg span sign operand (induction literal var neg run call operand)
  | .run span first steps =>
    run span first steps (induction literal var neg run call first) fun step _ =>
      induction literal var neg run call step.operand
  | .call span func args =>
    call span func args fun arg _ => induction literal var neg run call arg
termination_by e => sizeOf e
decreasing_by
  · simp +arith
  · simp +arith
  · have listed := List.sizeOf_lt_of_mem ‹_›
    cases step
    simp only [Step.mk.sizeOf_spec] at listed
    simp only [Expr.run.sizeOf_spec]
    omega
  · have listed := List.sizeOf_lt_of_mem ‹_›
    simp only [Expr.call.sizeOf_spec]
    omega

end Expr

end Formula
