import Formula.Diagnostic
import Formula.Expr.Basic
import Formula.Program.Basic

/-!
# Laying out programs

The instructions of an expression are those of its operands, one operand after the
other, and then the instruction that combines them (`Expr.instructions`). Each keeps the
span of the text it stands for.

`peak` follows how many values are on the stack before and after each instruction. A
program may need up to `Program.capacity` of them; the instruction that would put one
more there is where the text is nested too deeply.
-/

namespace Formula

/-- An instruction and the text it stands for. -/
structure Placed where
  span : Span
  instr : Instr

namespace Expr

mutual

/-- The instructions that compute an expression. -/
def instructions : Expr → List Placed
  | literal span value => [⟨span, .const value⟩]
  | var span name cell => [⟨span, .load name cell⟩]
  | neg _ sign operand => operand.instructions ++ [⟨sign, .neg⟩]
  | run _ first steps => first.instructions ++ stepInstructions steps
  | call span func args => argInstructions args ++ [⟨span, func.instr args.length⟩]
termination_by structural e => e

/-- The instructions that go on with a run. -/
def stepInstructions : List (Step Expr) → List Placed
  | [] => []
  | ⟨op, span, operand⟩ :: rest =>
    operand.instructions ++ ⟨span, .op op⟩ :: stepInstructions rest
termination_by structural steps => steps

/-- The instructions that compute some arguments. -/
def argInstructions : List Expr → List Placed
  | [] => []
  | arg :: rest => arg.instructions ++ argInstructions rest
termination_by structural args => args

end

theorem stepInstructions_eq_flatMap (steps : List (Step Expr)) :
    stepInstructions steps =
      steps.flatMap fun step => step.operand.instructions ++ [⟨step.span, .op step.op⟩] := by
  induction steps with
  | nil => rfl
  | cons step rest ih => simp [stepInstructions, ih]

theorem argInstructions_eq_flatMap (args : List Expr) :
    argInstructions args = args.flatMap instructions := by
  induction args with
  | nil => rfl
  | cons arg rest ih => simp [argInstructions, ih]

end Expr

namespace Program

/-- The largest number of values a program may keep on the stack. -/
def capacity : Nat := 256

/-- The largest number of values on the stack while instructions run that find `height`
values there, if `most` is the largest number so far. -/
def peak (height most : Nat) : List Placed → Except Diagnostic Nat
  | [] => .ok most
  | placed :: rest =>
    let after := height + 1 - placed.instr.pops
    if capacity < after then .error ⟨.nestingTooDeep, placed.span⟩
    else peak after (Nat.max most after) rest

/-- The program that computes an expression. -/
def ofExpr (e : Expr) : Except Diagnostic Program :=
  match peak 0 0 e.instructions with
  | .error d => .error d
  | .ok depth => .ok ⟨e.instructions.map Placed.instr, depth⟩

end Program

end Formula
