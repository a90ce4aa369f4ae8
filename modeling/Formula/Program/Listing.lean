import Formula.Number.Layout
import Formula.Program.Basic

/-!
# Listings

A program as text, one instruction on a line: its number in four digits or more, three
blanks, what it does and with what.
-/

namespace Formula

/-- The name of an operator in a listing. -/
def Operator.mnemonic : Operator → String
  | add => "ADD"
  | sub => "SUB"
  | mul => "MUL"
  | div => "DIV"
  | mod => "MOD"
  | pow => "POW"

/-- An instruction in a listing. -/
def Instr.text : Instr → String
  | const value => "LOAD_CONST    " ++ Number.Layout.plain.write value
  | load name _ => "LOAD_VAR      " ++ name
  | neg => "NEG"
  | op o => o.mnemonic
  | call1 name _ => "CALL          " ++ name ++ " 1"
  | call2 name _ => "CALL          " ++ name ++ " 2"
  | callN name count _ => "CALL          " ++ name ++ " " ++ toString count

namespace Program

/-- A line number, filled up with zeros to four digits. -/
def lineNumber (index : Nat) : String :=
  let digits := Nat.toDigits 10 index
  String.ofList (List.replicate (4 - digits.length) '0' ++ digits)

/-- One line of a listing. -/
def line (index : Nat) (instr : Instr) : String :=
  lineNumber index ++ "   " ++ instr.text ++ "\n"

/-- All lines of a listing. -/
def listing (p : Program) : String :=
  String.join (p.code.mapIdx line)

end Program

end Formula
