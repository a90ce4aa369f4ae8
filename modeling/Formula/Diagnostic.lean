import Formula.Span

/-!
# Diagnostics

Why a text is not a formula, and where. Only reading and laying out a formula
can fail; computing its value never does.

A `Fault` is a cause. Its code names it for programs, and its summary, label
and help say it to people. A `Diagnostic` is a fault at a span of the text.
-/

namespace Formula

/-- What can be wrong with a text. -/
inductive Fault where
  /-- A token stands where none of its kind can. -/
  | unexpectedToken
  /-- A name is neither bound by the caller nor built in. -/
  | unboundName
  /-- A function is given more or fewer arguments than it accepts. -/
  | argumentCount
  /-- A parenthesis has no partner. -/
  | unmatchedParen
  /-- Something follows a complete formula. -/
  | trailingInput
  /-- The text holds no token. -/
  | emptyExpression
  /-- An exponent has no digits. -/
  | malformedNumber
  /-- The text has more bytes than is allowed. -/
  | textTooLong
  /-- Sub-expressions, or the values held while computing, go too deep. -/
  | nestingTooDeep
deriving DecidableEq

namespace Fault

/-- The name of a fault for programs. -/
def code : Fault → String
  | unexpectedToken => "unexpected_token"
  | unboundName => "unknown_variable"
  | argumentCount => "arity_mismatch"
  | unmatchedParen => "unmatched_paren"
  | trailingInput => "trailing_input"
  | emptyExpression => "empty_expression"
  | malformedNumber => "invalid_number"
  | textTooLong => "expression_too_long"
  | nestingTooDeep => "nesting_too_deep"

/-- What went wrong, in a few words. -/
def summary : Fault → String
  | unexpectedToken => "unexpected token"
  | unboundName => "unknown variable or function"
  | argumentCount => "wrong number of arguments"
  | unmatchedParen => "unmatched parenthesis"
  | trailingInput => "unexpected input after the end of the expression"
  | emptyExpression => "empty expression"
  | malformedNumber => "invalid number literal"
  | textTooLong => "expression is too long"
  | nestingTooDeep => "expression is nested too deeply"

/-- What to write under the offending text. -/
def label : Fault → String
  | unexpectedToken => "unexpected here"
  | unboundName => "not bound"
  | argumentCount => "here"
  | unmatchedParen => "expected a matching parenthesis"
  | trailingInput => "expected end of input"
  | emptyExpression => "expected an expression"
  | malformedNumber => "malformed number"
  | textTooLong => "input is cut off here"
  | nestingTooDeep => "too deep"

/-- How to mend the text, where there is something to say. -/
def help : Fault → Option String
  | trailingInput =>
    some "implicit multiplication is not supported, write `2*x` instead of `2x`"
  | unboundName => some "bind the name in the symbol table before compiling"
  | _ => none

end Fault

/-- A fault and the text it is about. -/
structure Diagnostic where
  fault : Fault
  span : Span
deriving DecidableEq

namespace Diagnostic

/-- The fault and the byte at which its text starts. -/
def message (d : Diagnostic) : String :=
  d.fault.summary ++ " at offset " ++ toString d.span.start

end Diagnostic

end Formula
