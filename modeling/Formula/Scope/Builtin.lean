import Formula.Arithmetic
import Formula.Scope

/-!
# Built-in names

The constants and functions that every formula can use, and how a name is resolved:
in the caller's scope first, so the caller's bindings hide the built-in ones.
-/

namespace Formula.Scope

/-- The names that stand for something in every formula. -/
def builtin : Scope where
  entries :=
    [("pi", .constant 3.141592653589793),
      ("e", .constant 2.718281828459045),
      ("abs", .unary Float.abs),
      ("sin", .unary Float.sin),
      ("cos", .unary Float.cos),
      ("tan", .unary Float.tan),
      ("asin", .unary Float.asin),
      ("acos", .unary Float.acos),
      ("atan", .unary Float.atan),
      ("sinh", .unary Float.sinh),
      ("cosh", .unary Float.cosh),
      ("tanh", .unary Float.tanh),
      ("asinh", .unary Float.asinh),
      ("acosh", .unary Float.acosh),
      ("atanh", .unary Arithmetic.artanh),
      ("sqrt", .unary Float.sqrt),
      ("exp", .unary Float.exp),
      ("ln", .unary Float.log),
      ("log", .unary Float.log10),
      ("log2", .unary Float.log2),
      ("floor", .unary Float.floor),
      ("ceil", .unary Float.ceil),
      ("round", .unary Float.round),
      ("int", .unary Arithmetic.truncate),
      ("sign", .unary Arithmetic.sign),
      ("pow", .binary Float.pow),
      ("atan2", .binary Float.atan2),
      ("min", .variadic (.atLeast 1) Arithmetic.minimum),
      ("max", .variadic (.atLeast 1) Arithmetic.maximum)]
  distinct := by decide

/-- Where a name stands among the built-in ones, from zero. -/
def builtinIndex? (name : String) : Option Nat :=
  builtin.names.findIdx? (· == name)

/-- What a name stands for: what the caller bound it to, or else what is built in. -/
def resolve (s : Scope) (name : String) : Option Binding :=
  (s.find? name).or (builtin.find? name)

end Formula.Scope
