import Formula.Number.Decimal

/-!
# The shortest decimal that reads back

Many decimals are nearest to the same double. `Magnitude.shortest` picks one with
the fewest digits, and of those with as few the one nearest to the double.

The decimals that read back as a double fill an interval whose ends lie half-way
to its neighbours; the ends belong to it if the mantissa is even, since reading
rounds a tie to the even side. All ends are whole numbers of *quarters*, fourths of
a unit. A grid is the set of multiples of one power of ten. If a point of a grid
lies in the interval, so does one of the two points of the grid around the double,
so `onGrid` tries these two only.
-/

namespace Formula.Number

namespace Magnitude

/-- The number of quarters in one: a quarter is 2⁻¹⁰⁷⁶. -/
def quarters : Nat := Nat.pow 2 1076

/-- The size counted in quarters. -/
def inQuarters (x : Magnitude) : Nat :=
  4 * x.units

/-- The lower end of what reads back. Below a power of two doubles lie twice as
close as above it, except among the smallest. -/
def lowest (x : Magnitude) : Nat :=
  if x.mantissa = Exact.fractions ∧ 0 < x.shift then x.inQuarters - Nat.pow 2 x.shift
  else x.inQuarters - 2 * Nat.pow 2 x.shift

/-- The upper end of what reads back. -/
def highest (x : Magnitude) : Nat :=
  x.inQuarters + 2 * Nat.pow 2 x.shift

/-- Whether a decimal is nearer to `x` than to any other double, a tie going to the
even mantissa. -/
def readsBack (x : Magnitude) (d : Decimal) : Bool :=
  let low := x.lowest * d.denominator
  let high := x.highest * d.denominator
  let point := d.numerator * quarters
  if x.mantissa % 2 = 0 then decide (low ≤ point) && decide (point ≤ high)
  else decide (low < point) && decide (point < high)

/-- The nearest point that reads back among the multiples of `10^exponent`; of two
equally near, the larger. -/
def onGrid (x : Magnitude) (exponent : Int) : Option Decimal :=
  let step := Nat.pow 10 exponent.toNat * quarters
  let size := x.inQuarters * Nat.pow 10 (-exponent).toNat
  let below : Decimal := ⟨size / step, exponent⟩
  let above : Decimal := ⟨size / step + 1, exponent⟩
  if x.readsBack below then
    if x.readsBack above ∧ step ≤ 2 * (size % step) then some above else some below
  else if x.readsBack above then some above
  else none

/-- The exponent of the largest power of ten that is not above a size over zero. -/
def decade (x : Magnitude) : Int :=
  let one := Nat.pow 2 1074
  if one ≤ x.units then (digitCount (x.units / one) : Int) - 1
  else -(digitCount ((one - 1) / x.units) : Int)

/-- All digits: a unit is 5¹⁰⁷⁴ · 10⁻¹⁰⁷⁴. -/
def exactly (x : Magnitude) : Decimal :=
  ⟨x.units * Nat.pow 5 1074, -1074⟩

/-- The shortest decimal that reads back as a size over zero: the first hit on grids
of one, two, up to seventeen digits. Seventeen digits tell all doubles apart. -/
def shortest (x : Magnitude) : Decimal :=
  let decade := x.decade
  let hit := (List.range 17).findSome? fun (n : Nat) => x.onGrid (decade - n)
  (hit.getD x.exactly).trim

/-- A point is only taken from a grid if it reads back. -/
theorem readsBack_of_onGrid {x : Magnitude} {exponent : Int} {d : Decimal}
    (h : x.onGrid exponent = some d) : x.readsBack d := by
  simp only [onGrid] at h
  split at h
  · rename_i below
    split at h
    · rename_i above
      cases h
      exact above.1
    · cases h
      exact below
  · split at h
    · rename_i above
      cases h
      exact above
    · cases h

end Magnitude

end Formula.Number
