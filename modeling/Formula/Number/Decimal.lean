import Formula.Number.Exact

/-!
# Decimal numbers

A coefficient times a power of ten, as numbers are written, and the double
nearest to one.

* `Decimal.trim`: the same number with no zero at the end of its coefficient.
* `Decimal.toFloat`: the nearest double.
-/

namespace Formula.Number

/-- How many decimal digits a number has. Zero has one. -/
def digitCount (n : Nat) : Nat :=
  (Nat.toDigits 10 n).length

/-- The number `coefficient · 10^exponent`. -/
structure Decimal where
  coefficient : Nat
  exponent : Int
deriving DecidableEq

namespace Decimal

/-- As a fraction: the part over the bar. -/
def numerator (d : Decimal) : Nat :=
  d.coefficient * Nat.pow 10 d.exponent.toNat

/-- As a fraction: the part under the bar, a power of ten. -/
def denominator (d : Decimal) : Nat :=
  Nat.pow 10 (-d.exponent).toNat

/-- The exponent of ten for which the first digit stands. -/
def decade (d : Decimal) : Int :=
  d.exponent + digitCount d.coefficient - 1

/-- The same number with no zero at the end of its coefficient. -/
def trim (d : Decimal) : Decimal :=
  if h : d.coefficient ≠ 0 ∧ d.coefficient % 10 = 0 then
    trim ⟨d.coefficient / 10, d.exponent + 1⟩
  else d
termination_by d.coefficient
decreasing_by exact Nat.div_lt_self (Nat.pos_of_ne_zero h.1) (by decide)

/-- The double nearest to a decimal number. Sizes from 10⁴⁰⁰ lie past the largest
double and those under 10⁻⁴⁰⁰ nearest to zero, whatever their digits, so powers of
ten beyond these are never formed. -/
def toFloat (d : Decimal) : Float :=
  if d.coefficient = 0 then Float.ofBits 0
  else if 400 ≤ d.decade then infinity
  else if d.decade < -400 then Float.ofBits 0
  else Float.ofScientific d.coefficient (decide (d.exponent < 0)) d.exponent.natAbs

end Decimal

end Formula.Number
