import Formula.Compilation

/-!
# Journals

What happened while names were bound and a text was compiled, step by step. A step that
was not reached is not in the journal.
-/

namespace Formula

/-- Something worth noting. -/
inductive Event where
  /-- A binding of a name that was bound before is not used. -/
  | rebound (name : String)
  /-- The whole text was read. -/
  | scanned (tokens bytes : Nat)
  /-- It stands for an expression. -/
  | parsed (nodes : Nat)
  /-- The constants of the expression were folded. -/
  | folded (before after : Nat)
  /-- The expression was laid out as a program. -/
  | compiled (instructions depth : Nat)
deriving DecidableEq

/-- An event in words. -/
def Event.message : Event → String
  | rebound name => "ignoring duplicate binding for `" ++ name ++ "`"
  | scanned tokens bytes =>
    "scanned " ++ toString tokens ++ " tokens from " ++ toString bytes ++ " bytes"
  | parsed nodes => "parsed " ++ toString nodes ++ " nodes"
  | folded before after =>
    "folded " ++ toString before ++ " nodes into " ++ toString after
  | compiled instructions depth =>
    "compiled " ++ toString instructions ++ " instructions, stack depth " ++ toString depth

/-- What is noted while a list of bindings is added to a scope. -/
def Scope.journal (s : Scope) (bindings : List (String × Binding)) : List Event :=
  (s.rebound bindings).map .rebound

/-- What is noted while an expression is laid out. -/
def Options.journal (options : Options) (e : Expr) : List Event :=
  let folding := if options.fold then [.folded e.size e.fold.size] else []
  match Program.ofExpr (options.prepare e) with
  | .error _ => folding
  | .ok program => folding ++ [.compiled program.size program.depth]

/-- What is noted while a text is compiled. -/
def journal (options : Options) (scope : Scope) (source : String) : List Event :=
  if options.maxLength < source.utf8ByteSize then []
  else
    match (Parser.ofString source options.maxLevels).parse scope with
    | (.error _, _) => []
    | (.ok e, last) =>
      .scanned last.cursor.scanned source.utf8ByteSize :: .parsed e.size :: options.journal e

end Formula
