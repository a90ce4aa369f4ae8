import Formula.Number.Exact

/-!
# Arithmetic on doubles

The functions a formula needs beyond those that come with doubles. None of them
fails: what has no value is `nan`, as it is for the basic operations.

* `remainder`: exact, with the sign of the dividend.
* `sign`: one of `-1`, `0` and `1`.
* `minimum`, `maximum`: of any number of values, `nan` if one of them is.
* `artanh`: the inverse of the hyperbolic tangent as a logarithm.
-/

namespace Formula.Arithmetic

open Number (Exact nan infinity ofUnits)

/-- The remainder of a division whose quotient is cut towards zero. It needs no
rounding, since what is left of a number of units is again a number of units, and it
has the sign of the dividend even if it is zero. -/
def remainder (x y : Float) : Float :=
  match Exact.ofFloat x, Exact.ofFloat y with
  | .finite negative a, .finite _ b =>
    if b.units = 0 then nan else ofUnits negative (a.units % b.units)
  | .finite _ _, .infinite _ => x
  | _, _ => nan

/-- One for positive numbers and minus one for negative ones. The zeros and `nan` are
their own sign. -/
def sign (x : Float) : Float :=
  if 0 < x then 1 else if x < 0 then -1 else x

/-- The whole number next to `x` towards zero. -/
def truncate (x : Float) : Float :=
  if x < 0 then x.ceil else x.floor

/-- The smaller of two values, and `nan` if one of them is. -/
def lesser (x y : Float) : Float :=
  if x.isNaN || y.isNaN then nan else if y < x then y else x

/-- The larger of two values, and `nan` if one of them is. -/
def greater (x y : Float) : Float :=
  if x.isNaN || y.isNaN then nan else if x < y then y else x

/-- The smallest value, and `nan` if one of them is. -/
def minimum (values : List Float) : Float :=
  values.foldl lesser infinity

/-- The largest value, and `nan` if one of them is. -/
def maximum (values : List Float) : Float :=
  values.foldl greater (-infinity)

/-- The logarithm of `1 + x`. What is lost in rounding `1 + x` is made up for by the
factor `x / ((1 + x) - 1)`, so that small numbers keep their digits. -/
def logOnePlus (x : Float) : Float :=
  let y := 1 + x
  if y == 1 then x
  else if y.isInf then y.log
  else y.log * (x / (y - 1))

/-- The inverse of the hyperbolic tangent, half the logarithm of `(1 + x) / (1 - x)`. -/
def artanh (x : Float) : Float :=
  0.5 * logOnePlus (2 * x / (1 - x))

end Formula.Arithmetic
