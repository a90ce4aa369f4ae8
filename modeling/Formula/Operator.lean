import Formula.Arithmetic

/-!
# Operators

The six operators that stand between two operands, what they compute and how
tightly they bind.

Of two operators around an operand, the one with the larger power on the operand's
side takes it. `+` and `-` bind least, then `*`, `/` and `%`, and these group to the
left: their right power is above their left one. `^` binds most and groups to the
right. A sign before an operand binds more than `*` and less than `^`, so `-2^2` is
`-(2^2)` while `2^-1` has a value.
-/

namespace Formula

/-- An operator with two operands. -/
inductive Operator where
  | add | sub | mul | div | mod | pow
deriving DecidableEq

namespace Operator

/-- The character an operator is written with. -/
def symbol : Operator → Char
  | add => '+'
  | sub => '-'
  | mul => '*'
  | div => '/'
  | mod => '%'
  | pow => '^'

/-- The operator a character stands for. -/
def ofSymbol? : Char → Option Operator
  | '+' => some add
  | '-' => some sub
  | '*' => some mul
  | '/' => some div
  | '%' => some mod
  | '^' => some pow
  | _ => none

/-- The value of an operator at two numbers. -/
def apply : Operator → Float → Float → Float
  | add, x, y => x + y
  | sub, x, y => x - y
  | mul, x, y => x * y
  | div, x, y => x / y
  | mod, x, y => Arithmetic.remainder x y
  | pow, x, y => Float.pow x y

/-- How tightly an operator binds the operand on its left. -/
def leftPower : Operator → Nat
  | add | sub => 1
  | mul | div | mod => 3
  | pow => 7

/-- How tightly an operator binds the operand on its right. -/
def rightPower : Operator → Nat
  | add | sub => 2
  | mul | div | mod => 4
  | pow => 6

/-- How tightly a sign binds the operand after it. -/
def signPower : Nat := 5

end Operator

end Formula
