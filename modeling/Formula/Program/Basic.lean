import Formula.Func
import Formula.Operator
import Formula.Store

/-!
# Programs

A program is a list of instructions for a machine that keeps numbers on a stack. Each
instruction takes its operands off the top of the stack and puts one number there.

* `Func.instr`: the instruction that calls a function.
* `Instr.pops`: how many numbers an instruction takes.
* `Program.names`: the names a program reads, in the order of their first use.
-/

namespace Formula

/-- An instruction. -/
inductive Instr where
  /-- Puts a number on the stack. -/
  | const (value : Float)
  /-- Puts on the stack what a cell holds, read under a name. -/
  | load (name : String) (cell : Cell)
  /-- Negates the number on top. -/
  | neg
  /-- Combines the two numbers on top, the lower one being the left operand. -/
  | op (op : Operator)
  /-- Applies a function of one number to the number on top. -/
  | call1 (name : String) (f : Float → Float)
  /-- Applies a function to the two numbers on top, the lower one being the first argument. -/
  | call2 (name : String) (f : Float → Float → Float)
  /-- Applies a function to some numbers on top, the lowest being the first argument. -/
  | callN (name : String) (count : Nat) (f : List Float → Float)

/-- The instruction that applies a function to a number of arguments. -/
def Func.instr (func : Func) (count : Nat) : Instr :=
  match func.primitive with
  | .unary f => .call1 func.name f
  | .binary f => .call2 func.name f
  | .variadic _ f => .callN func.name count f

/-- How many numbers an instruction takes off the stack. -/
def Instr.pops : Instr → Nat
  | const _ => 0
  | load _ _ => 0
  | neg => 1
  | op _ => 2
  | call1 _ _ => 1
  | call2 _ _ => 2
  | callN _ count _ => count

/-- The name under which an instruction reads a cell. -/
def Instr.reads? : Instr → Option String
  | load name _ => some name
  | _ => none

/-- A compiled formula. -/
structure Program where
  code : List Instr
  /-- The largest number of values on the stack while the program runs. -/
  depth : Nat

namespace Program

/-- How many instructions a program has. -/
def size (p : Program) : Nat :=
  p.code.length

/-- Whether a program has no instructions. -/
def isEmpty (p : Program) : Bool :=
  p.code.isEmpty

/-- Whether a program is one number. -/
def isConstant (p : Program) : Bool :=
  match p.code with
  | [.const _] => true
  | _ => false

/-- The names a program reads, each once, in the order of their first use. -/
def names (p : Program) : List String :=
  p.code.foldl
    (fun found instr =>
      match instr.reads? with
      | some name => if name ∈ found then found else found ++ [name]
      | none => found)
    []

end Program

end Formula
