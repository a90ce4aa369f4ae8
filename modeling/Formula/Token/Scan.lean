import Formula.Number.Numeral
import Formula.Text.Blank
import Formula.Text.Width
import Formula.Token.Basic

/-!
# Scanning tokens

`Token.scan` takes the next token off a text, white space before it included. At the
end of the text it gives the token that marks the end, again and again.

`Token.take` does the work on a text that starts with a token: the token's characters
and what follows them make up that text (`take_append`), and there is at least one of
them (`take_ne_nil`).
-/

namespace Formula.Token

open Text (isBlank width)
open Number (Numeral)

/-- The characters of which a name may go on after its first letter. -/
def isNamePart (c : Char) : Bool :=
  c.isAlphanum || c == '_'

/-- What a scanned numeral is. A lone point has no digits, and an exponent without
digits is an error of its own. -/
def Kind.ofNumeral (n : Numeral) : Kind :=
  if n.mantissa.isEmpty then .invalid .unexpectedToken
  else if n.exponentComplete then .number n.value
  else .invalid .malformedNumber

/-- What is taken off the front of a text: a kind, the characters and the rest. -/
structure Taken where
  kind : Kind
  text : List Char
  rest : List Char

/-- Takes the token that starts with `c`. -/
def take (c : Char) (rest : List Char) : Taken :=
  if c.isDigit || c == '.' then
    let (numeral, rest) := Numeral.scan (c :: rest)
    ⟨.ofNumeral numeral, numeral.text, rest⟩
  else if c.isAlpha then
    ⟨.name, c :: rest.takeWhile isNamePart, rest.dropWhile isNamePart⟩
  else ⟨single c, [c], rest⟩
where
  /-- The tokens of one character. -/
  single (c : Char) : Kind :=
    match c with
    | '(' => .openParen
    | ')' => .closeParen
    | ',' => .comma
    | c =>
      match Operator.ofSymbol? c with
      | some op => .operator op
      | none => .invalid .unexpectedToken

/-- Takes the next token off a text that starts at a position of the whole. -/
def scan (position : Nat) (text : List Char) : Token × List Char :=
  let start := position + width (text.takeWhile isBlank)
  match text.dropWhile isBlank with
  | [] => (⟨.finish, Span.point start, ""⟩, [])
  | c :: rest =>
    let taken := take c rest
    (⟨taken.kind, ⟨start, start + width taken.text⟩, String.ofList taken.text⟩, taken.rest)

/-- Taking a token loses nothing. -/
theorem take_append (c : Char) (rest : List Char) :
    (take c rest).text ++ (take c rest).rest = c :: rest := by
  simp only [take]
  split
  · exact Numeral.text_scan (c :: rest)
  · split <;> simp [List.takeWhile_append_dropWhile]

/-- A text that starts with a digit or a point starts with a numeral. -/
theorem numeral_ne_nil {c : Char} (rest : List Char) (h : (c.isDigit || c == '.') = true) :
    (Numeral.scan (c :: rest)).1.text ≠ [] := by
  by_cases digit : c.isDigit
  · have whole : (Numeral.scan (c :: rest)).1.whole = c :: rest.takeWhile Char.isDigit := by
      simp only [Numeral.scan]
      split <;> simp [digit]
    simp [Numeral.text, whole]
  · have point : c = '.' := by simpa [digit] using h
    subst point
    have fraction : (Numeral.scan ('.' :: rest)).1.fraction =
        some (rest.takeWhile Char.isDigit) := by
      simp only [Numeral.scan]
      split <;> simp [digit, Numeral.takeFraction]
    simp [Numeral.text, fraction]

/-- A token has at least one character. -/
theorem take_ne_nil (c : Char) (rest : List Char) : (take c rest).text ≠ [] := by
  simp only [take]
  split
  · rename_i h
    exact numeral_ne_nil rest h
  · split <;> simp

/-- What a scan leaves is no longer than what it was given. -/
theorem length_scan_le (position : Nat) (text : List Char) :
    (scan position text).2.length ≤ text.length := by
  have shorter := (List.dropWhile_suffix isBlank (l := text)).length_le
  simp only [scan]
  split
  · simp
  · rename_i c rest found
    have parts := congrArg List.length (take_append c rest)
    simp only [found, List.length_append, List.length_cons] at parts shorter ⊢
    omega

/-- A token before the end takes up some of the text. -/
theorem length_scan_lt {position : Nat} {text : List Char}
    (h : (scan position text).1.isFinish = false) :
    (scan position text).2.length < text.length := by
  have shorter := (List.dropWhile_suffix isBlank (l := text)).length_le
  simp only [scan] at h ⊢
  split
  · rename_i found
    simp [found, isFinish, Kind.isFinish] at h
  · rename_i c rest found
    have parts := congrArg List.length (take_append c rest)
    have taken := List.length_pos_iff.mpr (take_ne_nil c rest)
    simp only [found, List.length_append, List.length_cons] at parts shorter ⊢
    omega

end Formula.Token
