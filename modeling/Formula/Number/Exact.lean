/-!
# What a double stands for

Every finite double is a whole number of *units* of 2⁻¹⁰⁷⁴, the smallest
positive double, so exact statements about doubles are statements about natural
numbers.

* `Magnitude`: a 53-bit mantissa and how far it is shifted up from the units.
* `Exact.ofFloat`: a double as a sign and a magnitude, an infinity or no number.
* `ofUnits`: the double of a sign and a number of units.
-/

namespace Formula.Number

/-- The double that is no number. -/
def nan : Float :=
  Float.ofBits 0x7ff8000000000000

/-- Positive infinity. -/
def infinity : Float :=
  Float.ofBits 0x7ff0000000000000

/-- The size of a finite double: `mantissa · 2^shift` units. -/
structure Magnitude where
  mantissa : Nat
  shift : Nat
deriving DecidableEq

/-- The size counted in units. -/
def Magnitude.units (x : Magnitude) : Nat :=
  x.mantissa * Nat.pow 2 x.shift

/-- What a double stands for. Zero keeps its sign. -/
inductive Exact where
  | nan
  | infinite (negative : Bool)
  | finite (negative : Bool) (size : Magnitude)
deriving DecidableEq

namespace Exact

/-- How many values the stored part of a mantissa has; a leading bit of this
weight is understood unless the exponent field is zero. -/
def fractions : Nat := 0x10000000000000

/-- The field of a double below its sign. -/
def magnitudes : Nat := 0x8000000000000000

/-- Reads the three fields of a double: the sign, eleven bits of exponent of
which the largest value marks what is not finite, and the fraction. -/
def ofFloat (x : Float) : Exact :=
  let bits := x.toBits.toNat
  let negative := decide (magnitudes ≤ bits)
  let exponent := bits % magnitudes / fractions
  let fraction := bits % fractions
  if exponent = 0 then .finite negative ⟨fraction, 0⟩
  else if exponent < 0x7ff then .finite negative ⟨fractions + fraction, exponent - 1⟩
  else if fraction = 0 then .infinite negative
  else .nan

end Exact

/-- The double of a sign and a number of units, without the bits that do not fit
into the mantissa. Units below 2⁵³ are their own field; each further binary place
raises the exponent by one. -/
def ofUnits (negative : Bool) (units : Nat) : Float :=
  let shift := units.log2 - 52
  let field := shift * Exact.fractions + units / Nat.pow 2 shift
  Float.ofBits (UInt64.ofNat (if negative then Exact.magnitudes + field else field))

end Formula.Number
