import Formula.Program.Layout
import Formula.Proofs.Accepted

/-!
# Programs on a stack without end

Instructions on a stack that is a list, the top first, and has room for any number of
values (`Program.exec?`). Here it is shown what the instructions of an expression do,
apart from how many places there are: they leave everything that is on the stack and put
the value of the expression on top (`Expr.exec?_code`). `Formula.Proofs.Machine`
brings this to a machine with places.

`Program.height` counts the values on the stack without looking at them, from how many an
instruction takes and that it puts back one. It counts right (`Program.height_of_exec?`).
-/

namespace Formula

/-- What an instruction makes of a stack, the top first. -/
def Instr.exec? (store : Store) : Instr → List Float → Option (List Float)
  | const value, stack => some (value :: stack)
  | load _ cell, stack => some (store cell :: stack)
  | neg, x :: stack => some (-x :: stack)
  | op o, y :: x :: stack => some (o.apply x y :: stack)
  | call1 _ f, x :: stack => some (f x :: stack)
  | call2 _ f, y :: x :: stack => some (f x y :: stack)
  | callN _ count f, stack =>
    if count ≤ stack.length then some (f (stack.take count).reverse :: stack.drop count)
    else none
  | _, _ => none

/-- An instruction finds what it takes and puts back one value. -/
theorem Instr.length_of_exec? {store : Store} {instr : Instr} {stack after : List Float}
    (h : instr.exec? store stack = some after) :
    instr.pops ≤ stack.length ∧ after.length + instr.pops = stack.length + 1 := by
  cases instr with
  | const | load =>
    cases h
    exact ⟨Nat.zero_le _, rfl⟩
  | neg | call1 =>
    rcases stack with _ | ⟨x, stack⟩ <;> cases h
    exact ⟨Nat.le_add_left _ _, rfl⟩
  | op | call2 =>
    rcases stack with _ | ⟨y, _ | ⟨x, stack⟩⟩ <;> cases h
    exact ⟨Nat.le_add_left _ _, rfl⟩
  | callN name count f =>
    simp only [exec?] at h
    split at h
    · cases h
      simp only [pops, List.length_cons, List.length_drop]
      omega
    · cases h

/-- A function has a value at a number of arguments that it accepts. -/
theorem Func.exists_value? {func : Func} {args : List Float}
    (h : func.arity.accepts args.length = true) : ∃ value, func.value? args = some value :=
  Option.isSome_iff_exists.mp ((func.primitive.isSome_value? args).trans h)

/-- A call takes the values of its arguments, the last being on top, and puts back that of
the function. -/
theorem Func.exec?_instr {func : Func} {args : List Float} {value : Float}
    (h : func.value? args = some value) (store : Store) (stack : List Float) :
    (func.instr args.length).exec? store (args.reverse ++ stack) = some (value :: stack) := by
  obtain ⟨name, primitive⟩ := func
  cases primitive with
  | unary f =>
    rcases args with _ | ⟨x, _ | _⟩ <;> cases h
    rfl
  | binary f =>
    rcases args with _ | ⟨x, _ | ⟨y, _ | _⟩⟩ <;> cases h
    rfl
  | variadic arity f =>
    simp only [value?, Primitive.value?] at h
    split at h <;> cases h
    have length : args.reverse.length = args.length := List.length_reverse
    simp only [instr, Instr.exec?]
    rw [if_pos (by rw [List.length_append, length]; exact Nat.le_add_right _ _),
      List.take_left' length, List.drop_left' length, List.reverse_reverse]

namespace Program

/-- What instructions make of a stack, the top first. -/
def exec? (store : Store) : List Instr → List Float → Option (List Float)
  | [], stack => some stack
  | instr :: rest, stack => (instr.exec? store stack).bind (exec? store rest)

theorem exec?_append (store : Store) (a b : List Instr) (stack : List Float) :
    exec? store (a ++ b) stack = (exec? store a stack).bind (exec? store b) := by
  induction a generalizing stack with
  | nil => rfl
  | cons instr rest ih =>
    rw [List.cons_append, exec?, exec?, Option.bind_assoc]
    exact congrArg _ (funext ih)

theorem exec?_singleton (store : Store) (instr : Instr) (stack : List Float) :
    exec? store [instr] stack = instr.exec? store stack :=
  Option.bind_fun_some _

/-- The number of values on the stack after some instructions, from that before them. -/
def height (start : Nat) (code : List Instr) : Nat :=
  code.foldl (fun n instr => n + 1 - instr.pops) start

theorem height_cons (start : Nat) (instr : Instr) (rest : List Instr) :
    height start (instr :: rest) = height (start + 1 - instr.pops) rest := rfl

theorem height_concat (start : Nat) (code : List Instr) (instr : Instr) :
    height start (code ++ [instr]) = height start code + 1 - instr.pops := by
  rw [height, List.foldl_append]
  rfl

theorem height_of_exec? {store : Store} {code : List Instr} {stack after : List Float}
    (h : exec? store code stack = some after) : height stack.length code = after.length := by
  induction code generalizing stack with
  | nil => cases h; rfl
  | cons instr rest ih =>
    obtain ⟨middle, h₁, h₂⟩ := Option.bind_eq_some_iff.mp h
    have step := (instr.length_of_exec? h₁).2
    rw [← ih h₂, height_cons, ← step, Nat.add_sub_cancel]

end Program

namespace Expr

open Program

variable (store : Store)

/-- The instructions of an expression without their spans. -/
def code (e : Expr) : List Instr :=
  e.instructions.map Placed.instr

theorem exec?_steps {steps : List (Step Expr)}
    (ih : ∀ step ∈ steps, ∀ stack,
      exec? store step.operand.code stack = some (step.operand.eval store :: stack))
    (value : Float) (stack : List Float) :
    exec? store ((stepInstructions steps).map Placed.instr) (value :: stack) =
      some (evalSteps store value steps :: stack) := by
  induction steps generalizing value with
  | nil => rfl
  | cons step rest ihs =>
    obtain ⟨here, later⟩ := List.forall_mem_cons.mp ih
    rw [stepInstructions, List.map_append, exec?_append, ← code, here, Option.bind_some,
      List.map_cons, exec?, Instr.exec?, Option.bind_some, ihs later, evalSteps]

theorem exec?_args {args : List Expr}
    (ih : ∀ arg ∈ args, ∀ stack, exec? store arg.code stack = some (arg.eval store :: stack))
    (stack : List Float) :
    exec? store ((argInstructions args).map Placed.instr) stack =
      some ((evalArgs store args).reverse ++ stack) := by
  induction args generalizing stack with
  | nil => rfl
  | cons arg rest ihs =>
    obtain ⟨here, later⟩ := List.forall_mem_cons.mp ih
    rw [argInstructions, List.map_append, exec?_append, ← code, here, Option.bind_some,
      ihs later, evalArgs, List.reverse_cons, List.append_assoc, List.singleton_append]

/-- The instructions of an expression put its value on top of what is on the stack. -/
theorem exec?_code {e : Expr} (h : e.Accepted) (stack : List Float) :
    exec? store e.code stack = some (e.eval store :: stack) := by
  induction h generalizing stack with
  | literal | var => rfl
  | neg _ ih =>
    rw [code, instructions, List.map_append, exec?_append, ← code, ih]
    rfl
  | run _ _ ih ihs =>
    rw [code, instructions, List.map_append, exec?_append, ← code, ih, Option.bind_some,
      exec?_steps store ihs, eval]
  | @call _ func args accepted _ ih =>
    have length : (evalArgs store args).length = args.length := by
      rw [evalArgs_eq_map, List.length_map]
    obtain ⟨value, hv⟩ := Func.exists_value? (length ▸ accepted)
    rw [code, instructions, List.map_append, exec?_append, exec?_args store ih, Option.bind_some,
      List.map_singleton, exec?, ← length, func.exec?_instr hv, eval, hv]
    rfl

end Expr

end Formula
