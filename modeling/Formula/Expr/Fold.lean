import Formula.Expr.Basic

/-!
# Folding constants

`Expr.fold` computes ahead of time what does not depend on any cell. It uses the same
operations as `Expr.eval` on the same numbers in the same order and never regroups:
`x + 2 + 3` is `(x + 2) + 3`, in which nothing can be computed, and `x + 5` could be
another number. So of a run only the numbers at its start are combined.

A number that replaces a negation or a run has the span from its first part to its last,
which leaves out parentheses around them; one that replaces a call has the call's span.
-/

namespace Formula.Expr

/-- The negative of an operand, computed if the operand is a number. -/
def negate (sign : Span) (operand : Expr) : Expr :=
  let span := sign.through operand.span
  match operand with
  | literal _ value => literal span (-value)
  | _ => neg span sign operand

/-- A run, its numbers combined as far as they reach from the start. -/
def combine (first : Expr) : List (Step Expr) → Expr
  | [] => first
  | step :: rest =>
    match first.literal?, step.operand.literal? with
    | some x, some y =>
      combine (literal (first.span.through step.operand.span) (step.op.apply x y)) rest
    | _, _ => chain first (step :: rest)

/-- The values of expressions that are all numbers. -/
def literals? : List Expr → Option (List Float)
  | [] => some []
  | arg :: rest =>
    match arg.literal?, literals? rest with
    | some value, some values => some (value :: values)
    | _, _ => none

/-- A call, computed if all arguments are numbers. -/
def apply (span : Span) (func : Func) (args : List Expr) : Expr :=
  match (literals? args).bind func.value? with
  | some value => literal span value
  | none => call span func args

mutual

/-- The same expression with what depends on no cell computed. -/
def fold : Expr → Expr
  | literal span value => literal span value
  | var span name cell => var span name cell
  | neg _ sign operand => negate sign operand.fold
  | run _ first steps => combine first.fold (foldSteps steps)
  | call span func args => apply span func (foldArgs args)
termination_by structural e => e

/-- Folds the operands of some steps. -/
def foldSteps : List (Step Expr) → List (Step Expr)
  | [] => []
  | ⟨op, span, operand⟩ :: rest => ⟨op, span, operand.fold⟩ :: foldSteps rest
termination_by structural steps => steps

/-- Folds some arguments. -/
def foldArgs : List Expr → List Expr
  | [] => []
  | arg :: rest => arg.fold :: foldArgs rest
termination_by structural args => args

end

theorem foldSteps_eq_map (steps : List (Step Expr)) :
    foldSteps steps = steps.map fun step => { step with operand := step.operand.fold } := by
  induction steps with
  | nil => rfl
  | cons step rest ih => simp [foldSteps, ih]

theorem foldArgs_eq_map (args : List Expr) : foldArgs args = args.map fold := by
  induction args with
  | nil => rfl
  | cons arg rest ih => simp [foldArgs, ih]

end Formula.Expr
