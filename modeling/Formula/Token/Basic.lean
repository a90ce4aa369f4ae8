import Formula.Diagnostic
import Formula.Operator

/-!
# Tokens

The smallest parts of a formula's text that mean something, each with the stretch of
text it was read from.
-/

namespace Formula

namespace Token

/-- What kind of token a stretch of text is. -/
inductive Kind where
  | operator (op : Operator)
  | openParen
  | closeParen
  | comma
  /-- A name, which the token's text spells. -/
  | name
  | number (value : Float)
  /-- The end of the text. -/
  | finish
  /-- Text that is no token, and what is wrong with it. -/
  | invalid (fault : Fault)
deriving DecidableEq

/-- Whether this is the end of the text. -/
def Kind.isFinish : Kind → Bool
  | finish => true
  | _ => false

end Token

/-- A token: its kind, where it stands and how it is spelled. -/
structure Token where
  kind : Token.Kind
  span : Span
  text : String
deriving DecidableEq

namespace Token

/-- Whether a token marks the end of the text. -/
def isFinish (t : Token) : Bool :=
  t.kind.isFinish

/-- The diagnostic for a token that cannot stand where it was found. One that is no
token in any place keeps the fault it was read with. -/
def refuse (t : Token) (fault : Fault) : Diagnostic :=
  match t.kind with
  | .invalid own => ⟨own, t.span⟩
  | _ => ⟨fault, t.span⟩

end Token

end Formula
