/-!
# Functions

A function of a formula has a name and a primitive, which computes its value from its
arguments. A primitive is a function in the mathematical sense: equal arguments give
equal values, so a call may be computed at any time.

* `Arity`: how many arguments are accepted.
* `Func.value?`: the value at a list of arguments, if their number is accepted.
-/

namespace Formula

/-- How many arguments a function accepts. -/
inductive Arity where
  | exactly (count : Nat)
  | atLeast (count : Nat)
deriving DecidableEq

namespace Arity

/-- Whether a number of arguments is accepted. -/
def accepts : Arity → Nat → Bool
  | exactly n, count => count == n
  | atLeast n, count => decide (n ≤ count)

/-- The largest number of arguments that is accepted, if there is one. -/
def most? : Arity → Option Nat
  | exactly n => some n
  | atLeast _ => none

/-- The text of an arity: a number, with a plus if more are accepted. -/
def text : Arity → String
  | exactly n => toString n
  | atLeast n => toString n ++ "+"

theorem le_of_accepts {arity : Arity} {count most : Nat} (h : arity.accepts count)
    (hm : arity.most? = some most) : count ≤ most := by
  cases arity <;> simp_all [accepts, most?]

end Arity

/-- What computes the value of a call. -/
inductive Primitive where
  | unary (f : Float → Float)
  | binary (f : Float → Float → Float)
  | variadic (arity : Arity) (f : List Float → Float)

namespace Primitive

/-- How many arguments a primitive takes. -/
def arity : Primitive → Arity
  | unary _ => .exactly 1
  | binary _ => .exactly 2
  | variadic arity _ => arity

/-- The value at a list of arguments, if their number is accepted. -/
def value? : Primitive → List Float → Option Float
  | unary f, [x] => some (f x)
  | binary f, [x, y] => some (f x y)
  | variadic arity f, args => if arity.accepts args.length then some (f args) else none
  | _, _ => none

/-- A primitive has a value at exactly the numbers of arguments it accepts. -/
theorem isSome_value? (p : Primitive) (args : List Float) :
    (p.value? args).isSome = p.arity.accepts args.length := by
  cases p with
  | unary f =>
    rcases args with _ | ⟨_, _ | ⟨_, _⟩⟩ <;> simp [value?, arity, Arity.accepts]
  | binary f =>
    rcases args with _ | ⟨_, _ | ⟨_, _ | ⟨_, _⟩⟩⟩ <;> simp [value?, arity, Arity.accepts]
  | variadic a f => simp only [value?, arity]; split <;> simp_all

end Primitive

/-- A function under the name by which it is called. -/
structure Func where
  name : String
  primitive : Primitive

namespace Func

/-- How many arguments a function accepts. -/
def arity (f : Func) : Arity :=
  f.primitive.arity

/-- The value at a list of arguments, if their number is accepted. -/
def value? (f : Func) (args : List Float) : Option Float :=
  f.primitive.value? args

end Func

end Formula
