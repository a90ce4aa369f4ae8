import Formula.Number.Shortest

/-!
# Numbers as text

How the shortest decimal of a double is set out. A `Layout` holds the choices: which
numbers are written without a power of ten, and what follows a whole number.

* `Layout.plain`: digits and a point only, whatever the size.
* `Layout.detailed`: a power of ten for very large and very small numbers, and
  always a sign that the number need not be whole.
-/

namespace Formula.Number

/-- Choices in writing a number. -/
structure Layout where
  /-- Whether a number is written without a power of ten, by the exponent for which
  its first digit stands. -/
  positional : Int → Bool
  /-- What follows the digits of a whole number written without a power of ten. -/
  wholeMark : List Char

namespace Decimal

/-- The digits of the coefficient. -/
def digits (d : Decimal) : List Char :=
  Nat.toDigits 10 d.coefficient

/-- Digits with a point where the ones end, zeros filling up to it on either side. -/
def positional (d : Decimal) (wholeMark : List Char) : List Char :=
  match d.exponent with
  | .ofNat zeros => d.digits ++ List.replicate zeros '0' ++ wholeMark
  | .negSucc places =>
    let width := d.digits.length
    if places + 1 < width then
      d.digits.take (width - (places + 1)) ++ '.' :: d.digits.drop (width - (places + 1))
    else '0' :: '.' :: (List.replicate (places + 1 - width) '0' ++ d.digits)

/-- One digit, a point if more follow, and the power of ten. -/
def scientific (d : Decimal) : List Char :=
  let point := if 1 < d.digits.length then ['.'] else []
  d.digits.take 1 ++ point ++ d.digits.drop 1 ++ 'e' :: (toString d.decade).toList

/-- A decimal number in a layout. -/
def write (layout : Layout) (d : Decimal) : List Char :=
  if layout.positional d.decade then d.positional layout.wholeMark else d.scientific

end Decimal

namespace Layout

/-- Neither a power of ten nor a mark on whole numbers. -/
def plain : Layout :=
  ⟨fun _ => true, []⟩

/-- A power of ten below 10⁻⁴ and from 10¹⁶, and `.0` on whole numbers. -/
def detailed : Layout :=
  ⟨fun decade => decide (-4 ≤ decade) && decide (decade < 16), ['.', '0']⟩

/-- The characters of a number: a sign if it is negative, zero included, and the
shortest digits. -/
def characters (layout : Layout) (x : Float) : List Char :=
  match Exact.ofFloat x with
  | .nan => "NaN".toList
  | .infinite negative => signed negative "inf".toList
  | .finite negative size =>
    signed negative
      (if size.mantissa = 0 then '0' :: layout.wholeMark else size.shortest.write layout)
where
  /-- Puts a sign before the text of a negative number. -/
  signed (negative : Bool) (text : List Char) : List Char :=
    if negative then '-' :: text else text

/-- The text of a number. -/
def write (layout : Layout) (x : Float) : String :=
  String.ofList (layout.characters x)

end Layout

end Formula.Number
