import Formula.Expr.Fold
import Formula.Expr.Parser
import Formula.Program.Layout
import Formula.Program.Run

/-!
# From text to programs

`compile` reads a text, folds its constants unless told not to, and lays the result out
as a program, which can then be evaluated in any number of stores. `interpret` does all
of it once.
-/

namespace Formula

/-- Limits on the text of a formula, and whether to fold constants. -/
structure Options where
  /-- The largest size of the text in bytes. -/
  maxLength : Nat := 4096
  /-- The largest number of levels that may be open at a time. -/
  maxLevels : Nat := 64
  fold : Bool := true
deriving DecidableEq

/-- The expression a text stands for. -/
def parse (scope : Scope) (maxLevels : Nat) (source : String) : Except Diagnostic Expr :=
  ((Parser.ofString source maxLevels).parse scope).1

/-- What is laid out for an expression under some options. -/
def Options.prepare (options : Options) (e : Expr) : Expr :=
  if options.fold then e.fold else e

/-- The program of a text. One that is too long is not read, and what is wrong is where
the allowed part of it stops. -/
def compile (options : Options) (scope : Scope) (source : String) : Except Diagnostic Program :=
  if options.maxLength < source.utf8ByteSize then
    .error ⟨.textTooLong, Span.point options.maxLength⟩
  else
    match parse scope options.maxLevels source with
    | .error d => .error d
    | .ok e => Program.ofExpr (options.prepare e)

/-- The value of a text in a store. -/
def interpret (scope : Scope) (store : Store) (source : String) : Except Diagnostic Float :=
  (compile {} scope source).map fun program => program.eval store

end Formula
