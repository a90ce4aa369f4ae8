import Formula.Number.Decimal

/-!
# Numerals

A numeral is `digits [. digits] [(e|E) [+|-] digits]`, with digits before the point
or after it. It has no sign of its own.

* `Numeral.scan`: the longest beginning of a text that can be a numeral, taken apart,
  and what follows it. Its text and the rest make up the whole (`text_scan`).
* `Numeral.value`: the double nearest to a numeral.
* `read?`: a whole text as a number with an optional sign, or as an infinity or `nan`.
-/

namespace Formula.Number

/-- Takes a plus or minus sign off the front of a text. -/
def takeSign : List Char → Option Char × List Char
  | '+' :: rest => (some '+', rest)
  | '-' :: rest => (some '-', rest)
  | rest => (none, rest)

/-- The exponent part of a numeral, whose digits may be missing. -/
structure Exponent where
  marker : Char
  sign : Option Char
  digits : List Char
deriving DecidableEq

namespace Exponent

/-- An exponent as it was written. -/
def text (e : Exponent) : List Char :=
  e.marker :: (e.sign.toList ++ e.digits)

/-- The power of ten an exponent asks for. -/
def value (e : Exponent) : Int :=
  let size : Int := Nat.ofDigitChars 10 e.digits 0
  if e.sign = some '-' then -size else size

/-- Takes an exponent off the front of a text that goes on with one. -/
def scan : List Char → Option Exponent × List Char
  | [] => (none, [])
  | c :: rest =>
    if c = 'e' ∨ c = 'E' then
      let (sign, digits) := takeSign rest
      (some ⟨c, sign, digits.takeWhile Char.isDigit⟩, digits.dropWhile Char.isDigit)
    else (none, c :: rest)

end Exponent

/-- The parts of a numeral, or of what began like one. -/
structure Numeral where
  whole : List Char
  /-- What follows the point, if there is a point. -/
  fraction : Option (List Char)
  exponent : Option Exponent
deriving DecidableEq

namespace Numeral

/-- The digits before and after the point. -/
def mantissa (n : Numeral) : List Char :=
  n.whole ++ n.fraction.getD []

/-- A numeral as it was written. -/
def text (n : Numeral) : List Char :=
  n.whole ++ (n.fraction.elim [] ('.' :: ·) ++ n.exponent.elim [] Exponent.text)

/-- Whether an exponent, if there is one, has digits. -/
def exponentComplete (n : Numeral) : Bool :=
  n.exponent.all (fun e => !e.digits.isEmpty)

/-- The double nearest to a numeral. -/
def value (n : Numeral) : Float :=
  let places := (n.fraction.getD []).length
  let power := n.exponent.elim 0 Exponent.value
  Decimal.toFloat ⟨Nat.ofDigitChars 10 n.mantissa 0, power - places⟩

/-- Takes a point and the digits after it off the front of a text. -/
def takeFraction : List Char → Option (List Char) × List Char
  | '.' :: rest => (some (rest.takeWhile Char.isDigit), rest.dropWhile Char.isDigit)
  | rest => (none, rest)

/-- Takes the longest run of digits with at most one point and, if it holds a digit,
the exponent after it. -/
def scan (text : List Char) : Numeral × List Char :=
  let whole := text.takeWhile Char.isDigit
  let (fraction, rest) := takeFraction (text.dropWhile Char.isDigit)
  if (whole ++ fraction.getD []).isEmpty then (⟨whole, fraction, none⟩, rest)
  else
    let (exponent, rest) := Exponent.scan rest
    (⟨whole, fraction, exponent⟩, rest)

/-- The value of a text that is one complete numeral. -/
def read? (text : List Char) : Option Float :=
  let (n, rest) := scan text
  if rest.isEmpty && !n.mantissa.isEmpty && n.exponentComplete then some n.value else none

end Numeral

theorem takeSign_text (text : List Char) :
    (takeSign text).1.toList ++ (takeSign text).2 = text := by
  unfold takeSign
  split <;> rfl

theorem Exponent.text_scan (text : List Char) :
    (scan text).1.elim [] Exponent.text ++ (scan text).2 = text := by
  cases text with
  | nil => rfl
  | cons c rest =>
    simp only [scan]
    split
    · simp [Exponent.text, List.takeWhile_append_dropWhile, takeSign_text]
    · rfl

theorem Numeral.text_takeFraction (text : List Char) :
    (takeFraction text).1.elim [] ('.' :: ·) ++ (takeFraction text).2 = text := by
  unfold takeFraction
  split <;> simp [List.takeWhile_append_dropWhile]

/-- Scanning loses nothing. -/
theorem Numeral.text_scan (text : List Char) :
    (scan text).1.text ++ (scan text).2 = text := by
  have pieces := text_takeFraction (text.dropWhile Char.isDigit)
  simp only [scan]
  split
  · simp [Numeral.text, pieces, List.takeWhile_append_dropWhile]
  · simp [Numeral.text, Exponent.text_scan, pieces, List.takeWhile_append_dropWhile]

/-- The value of a text that is a number: a numeral, `inf`, `infinity` or `nan` in any
case, after at most one sign. -/
def read? (text : List Char) : Option Float :=
  let (sign, size) := takeSign text
  let word := String.ofList (size.map Char.toLower)
  let value :=
    if word = "inf" ∨ word = "infinity" then some infinity
    else if word = "nan" then some nan
    else Numeral.read? size
  if sign = some '-' then value.map Float.neg else value

end Formula.Number
