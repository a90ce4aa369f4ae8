import Formula.Cursor
import Formula.Expr.Basic
import Formula.Scope.Builtin

/-!
# Reading expressions

The tokens of a text are read into an expression from left to right, looking one token
ahead. An operand is read first. Then operators are taken, with an operand each, as long
as they bind the operand before them at least as tightly as `least` asks. How tightly
operators bind is said in `Formula.Operator`.

Every sub-expression takes up one of the `levels` that may still be opened: the whole
text, what is in parentheses, the operand of a sign, the right operand of an operator
and each argument of a call. Levels are only counted against a limit. Reading would end
without them, since a token is taken before anything is read again; that is what the
bound in `Outcome` is for.

* `Parser.parse`: the expression a whole text stands for, or why it stands for none.
  A parser can be used again and goes on where it stopped.
-/

namespace Formula

/-- What reading gives: a value, or what is wrong, with the cursor after the tokens that
were read. A value is not had without reading: fewer than `limit` tokens are left. -/
inductive Outcome (α : Type) (limit : Nat) where
  | ok (value : α) (after : Cursor) (bound_lt : after.bound < limit)
  | error (diagnostic : Diagnostic) (after : Cursor)

namespace Expr

mutual

/-- Reads a sub-expression, which opens a level. If none is left to open, the token it
would start with is too deep. -/
def read (scope : Scope) (levels least : Nat) (c : Cursor) : Outcome Expr c.bound :=
  match levels with
  | 0 => .error ⟨.nestingTooDeep, c.peek.1.span⟩ c.peek.2
  | levels + 1 =>
    match readOperand scope levels c with
    | .error d last => .error d last
    | .ok first after lt =>
      match readSteps scope levels least after with
      | .error d last => .error d last
      | .ok steps last le => .ok (chain first steps) last (by omega)
termination_by 2 * c.bound + 1

/-- Reads an operand: a number, a name, a call, a sign with an operand of its own, or an
expression in parentheses. The parentheses belong to the span of what they hold, and so
does a plus sign, which is all that is left of it. -/
def readOperand (scope : Scope) (levels : Nat) (c : Cursor) : Outcome Expr c.bound :=
  let token := c.next.1
  match kind : token.kind with
  | .number value =>
    .ok (.literal token.span value) c.next.2 (Cursor.bound_next_lt_of_kind kind rfl)
  | .name =>
    have lt : c.next.2.bound < c.bound := Cursor.bound_next_lt_of_kind kind rfl
    match scope.resolve token.text with
    | none => .error ⟨.unboundName, token.span⟩ c.next.2
    | some (.cell cell) => .ok (.var token.span token.text cell) c.next.2 lt
    | some (.constant value) => .ok (.literal token.span value) c.next.2 lt
    | some (.function primitive) =>
      match readCall scope levels ⟨token.text, primitive⟩ token.span c.next.2 with
      | .error d last => .error d last
      | .ok e last lt' => .ok e last (Nat.lt_trans lt' lt)
  | .openParen =>
    have lt : c.next.2.bound < c.bound := Cursor.bound_next_lt_of_kind kind rfl
    match read scope levels 0 c.next.2 with
    | .error d last => .error d last
    | .ok inner closing lt' =>
      let close := closing.next.1
      match close.kind with
      | .closeParen =>
        .ok (inner.withSpan (token.span.through close.span)) closing.next.2
          (Nat.lt_of_le_of_lt closing.bound_next_le (Nat.lt_trans lt' lt))
      | _ => .error (close.refuse .unmatchedParen) closing.next.2
  | .operator .sub =>
    have lt : c.next.2.bound < c.bound := Cursor.bound_next_lt_of_kind kind rfl
    match read scope levels Operator.signPower c.next.2 with
    | .error d last => .error d last
    | .ok operand last lt' =>
      .ok (.neg (token.span.through operand.span) token.span operand) last
        (Nat.lt_trans lt' lt)
  | .operator .add =>
    have lt : c.next.2.bound < c.bound := Cursor.bound_next_lt_of_kind kind rfl
    match read scope levels Operator.signPower c.next.2 with
    | .error d last => .error d last
    | .ok operand last lt' =>
      .ok (operand.withSpan (token.span.through operand.span)) last (Nat.lt_trans lt' lt)
  | .closeParen => .error ⟨.unmatchedParen, token.span⟩ c.next.2
  | _ => .error (token.refuse .unexpectedToken) c.next.2
termination_by 2 * c.bound

/-- Reads the operators that bind tightly enough on their left, each with the operand on
its right. -/
def readSteps (scope : Scope) (levels least : Nat) (c : Cursor) :
    Outcome (List (Step Expr)) (c.bound + 1) :=
  let token := c.peek.1
  match kind : token.kind with
  | .operator op =>
    if op.leftPower < least then .ok [] c.peek.2 (Nat.lt_succ_of_le c.bound_peek_le)
    else
      have lt : c.peek.2.next.2.bound < c.bound := Cursor.bound_next_peek_lt_of_kind kind rfl
      match read scope levels op.rightPower c.peek.2.next.2 with
      | .error d last => .error d last
      | .ok operand after lt' =>
        match readSteps scope levels least after with
        | .error d last => .error d last
        | .ok steps last le => .ok (⟨op, token.span, operand⟩ :: steps) last (by omega)
  | _ => .ok [] c.peek.2 (Nat.lt_succ_of_le c.bound_peek_le)
termination_by 2 * c.bound

/-- Reads the arguments of a function whose name was read, in their parentheses. -/
def readCall (scope : Scope) (levels : Nat) (func : Func) (name : Span) (c : Cursor) :
    Outcome Expr c.bound :=
  let paren := c.next.1
  match kind : paren.kind with
  | .openParen =>
    have lt : c.next.2.bound < c.bound := Cursor.bound_next_lt_of_kind kind rfl
    let token := c.next.2.peek.1
    match token.kind with
    | .closeParen =>
      if func.arity.accepts 0 then
        .ok (.call (name.through token.span) func []) c.next.2.peek.2.next.2
          (Nat.lt_of_le_of_lt c.next.2.peek.2.bound_next_le
            (Nat.lt_of_le_of_lt c.next.2.bound_peek_le lt))
      else .error ⟨.argumentCount, token.span⟩ c.next.2.peek.2.next.2
    | _ =>
      if func.arity.most? = some 0 then .error ⟨.argumentCount, token.span⟩ c.next.2.peek.2
      else
        have le : c.next.2.peek.2.bound ≤ c.next.2.bound := c.next.2.bound_peek_le
        match readArgs scope levels func.arity 1 c.next.2.peek.2 with
        | .error d last => .error d last
        | .ok (args, close) last lt' =>
          if func.arity.accepts args.length then
            .ok (.call (name.through close) func args) last (by omega)
          else .error ⟨.argumentCount, close⟩ last
  | _ => .error (paren.refuse .unexpectedToken) c.next.2
termination_by 2 * c.bound + 1

/-- Reads the argument with a number, counted from one, and those after it, up to the
closing parenthesis, whose span is given with them. A comma that would lead to more
arguments than are accepted is not followed. -/
def readArgs (scope : Scope) (levels : Nat) (arity : Arity) (count : Nat) (c : Cursor) :
    Outcome (List Expr × Span) c.bound :=
  match read scope levels 0 c with
  | .error d last => .error d last
  | .ok arg after lt =>
    let token := after.next.1
    have le : after.next.2.bound ≤ after.bound := after.bound_next_le
    match token.kind with
    | .comma =>
      if arity.most? = some count then
        .error ⟨.argumentCount, after.next.2.peek.1.span⟩ after.next.2.peek.2
      else
        match readArgs scope levels arity (count + 1) after.next.2 with
        | .error d last => .error d last
        | .ok (args, close) last lt' => .ok (arg :: args, close) last (by omega)
    | .closeParen => .ok ([arg], token.span) after.next.2 (by omega)
    | _ => .error (token.refuse .unmatchedParen) after.next.2
termination_by 2 * c.bound + 2

end

end Expr

/-- A reader of expressions: where it stands in a text, and how many levels it may open. -/
structure Parser where
  cursor : Cursor
  levels : Nat

namespace Parser

/-- The parser at the start of a text. -/
def ofString (source : String) (levels : Nat) : Parser :=
  ⟨.ofString source, levels⟩

/-- Reads the rest of the text as one expression. A level that could not be opened is
lost to the readings that follow. -/
def parse (scope : Scope) (p : Parser) : Except Diagnostic Expr × Parser :=
  let first := p.cursor.peek.1
  let here := p.cursor.peek.2
  if first.isFinish then (.error ⟨.emptyExpression, first.span⟩, ⟨here, p.levels⟩)
  else
    match Expr.read scope p.levels 0 here with
    | .error d last =>
      let levels := if d.fault = .nestingTooDeep then p.levels - 1 else p.levels
      (.error d, ⟨last, levels⟩)
    | .ok e last _ =>
      let token := last.next.1
      let after : Parser := ⟨last.next.2, p.levels⟩
      match token.kind with
      | .finish => (.ok e, after)
      | .closeParen => (.error ⟨.unmatchedParen, token.span⟩, after)
      | _ => (.error (token.refuse .trailingInput), after)

end Parser

end Formula
