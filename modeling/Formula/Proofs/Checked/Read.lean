import Formula.Proofs.Checked.Scan
import Formula.Proofs.Ending
import Formula.Proofs.Shift

/-!
# Reading with checks

Reading in which everything that could fail is checked (`Checked.read?`): tokens are scanned with
checks, the text of a name is taken out of the source, how tightly an operator binds is looked up
in tables that say nothing of other tokens, and reading only goes on after an operand or an
argument if tokens were taken for it. No check ever fails, and what is read is what is read without
them (`Reads.checked`).
-/

namespace Formula

open Except (ok error)
open Text (width slice?)

/-! ## Cursors -/

namespace Cursor.StandsIn

variable {source : String} {c : Cursor}

/-- What is not scanned yet is what the text goes on with. -/
theorem inside (h : c.StandsIn source) : Head.In source.toList ⟨c.position, c.rest⟩ := by
  have waiting (k : Nat) : ((ofString source).skip k).waiting = none := waiting_skip rfl k
  have skipped (k : Nat) : Head.In source.toList
      ⟨((ofString source).skip k).position, ((ofString source).skip k).rest⟩ := by
    obtain ⟨before, after, split, tails⟩ := tails_skip source k
    have rest : ((ofString source).skip k).rest = after :=
      tails.rest.trans (String.toList_ofList)
    exact ⟨before, by rw [rest, split], tails.position⟩
  obtain ⟨k, rfl | rfl⟩ := h
  · exact skipped k
  · have next := skipped (k + 1)
    rw [← next_skip, next_eq_fetch (waiting k)] at next
    simp only [Cursor.peek, waiting]
    exact next

/-- A token that is handed out is what the text holds at its span. -/
theorem held (h : c.StandsIn source) {kind : Token.Kind} (hk : c.next.1.kind = kind)
    (more : kind.isFinish = false) :
    slice? source.toList c.next.1.span = some c.next.1.text.toList := by
  have first : c.next.1 ∈ c.ahead := by
    rw [ahead_of_kind hk more]
    exact List.mem_cons_self
  exact slice?_tokens source _ (h.suffix.mem first)

end Cursor.StandsIn

namespace Checked

section Tokens

variable (source : String)

/-- Scans one token with checks. -/
def fetch? (c : Cursor) : Option (Token × Cursor) := do
  let (token, head) ← scan? source.toList ⟨c.position, c.rest⟩
  some (token,
    { c with
      rest := head.rest
      position := head.position
      scanned := if token.isFinish then c.scanned else c.scanned + 1 })

/-- The next token, which stays the next one. -/
def peek? (c : Cursor) : Option (Token × Cursor) :=
  match c.waiting with
  | some token => some (token, c)
  | none => do
    let (token, after) ← fetch? source c
    some (token, { after with waiting := some token })

/-- The next token, handed out. -/
def next? (c : Cursor) : Option (Token × Cursor) :=
  match c.waiting with
  | some token => some (token, { c with waiting := none })
  | none => fetch? source c

/-- The text at the span of a token. -/
def text? (token : Token) : Option String :=
  (slice? source.toList token.span).map String.ofList

end Tokens

section Tokens

variable {source : String} {c : Cursor} (h : c.StandsIn source)
include h

theorem fetch?_eq : fetch? source c = some c.fetch := by
  rw [fetch?, scan?_eq h.inside]
  rfl

theorem peek?_eq : peek? source c = some c.peek := by
  cases waiting : c.waiting with
  | some token => simp [peek?, Cursor.peek, waiting]
  | none => simp [peek?, Cursor.peek, waiting, fetch?_eq h]

theorem next?_eq : next? source c = some c.next := by
  cases waiting : c.waiting with
  | some token => simp [next?, Cursor.next, waiting]
  | none => simp [next?, Cursor.next, waiting, fetch?_eq h]

theorem text?_eq {kind : Token.Kind} (hk : c.next.1.kind = kind) (more : kind.isFinish = false) :
    text? source c.next.1 = some c.next.1.text := by
  rw [text?, h.held hk more, Option.map_some, String.ofList_toList]

end Tokens

/-! ## Operators -/

/-- Whether a token stands between two operands. -/
def isOperator : Token.Kind → Bool
  | .operator _ => true
  | _ => false

/-- How tightly a token binds the operands on its left and on its right. -/
def powers? : Token.Kind → Option (Nat × Nat)
  | .operator op => some (op.leftPower, op.rightPower)
  | _ => none

/-- How tightly a token binds as a sign. -/
def signPower? : Token.Kind → Option Nat
  | .operator .add | .operator .sub => some Operator.signPower
  | _ => none

/-- What a token does with two operands. -/
def operator? : Token.Kind → Option Operator
  | .operator op => some op
  | _ => none

/-! ## Reading -/

mutual

/-- Reads a sub-expression. -/
def read? (source : String) (scope : Scope) (levels least : Nat) (c : Cursor) :
    Option (Except Diagnostic Expr × Cursor) :=
  match levels with
  | 0 => do
    let (token, c) ← peek? source c
    some (error ⟨.nestingTooDeep, token.span⟩, c)
  | levels + 1 => do
    let (first, c) ← readOperand? source scope levels c
    match first with
    | error d => some (error d, c)
    | ok first =>
      let (steps, c) ← readSteps? source scope levels least c
      some (steps.map first.chain, c)
termination_by (levels, 0, 0)

/-- Reads an operand. -/
def readOperand? (source : String) (scope : Scope) (levels : Nat) (c : Cursor) :
    Option (Except Diagnostic Expr × Cursor) := do
  let (token, c) ← next? source c
  match token.kind with
  | .number value => some (ok (.literal token.span value), c)
  | .name =>
    let name ← text? source token
    match scope.resolve name with
    | none => some (error ⟨.unboundName, token.span⟩, c)
    | some (.cell cell) => some (ok (.var token.span name cell), c)
    | some (.constant value) => some (ok (.literal token.span value), c)
    | some (.function primitive) =>
      readCall? source scope levels ⟨name, primitive⟩ token.span c
  | .openParen =>
    let (inner, c) ← read? source scope levels 0 c
    match inner with
    | error d => some (error d, c)
    | ok inner =>
      let (close, c) ← next? source c
      if close.kind = .closeParen then
        some (ok (inner.withSpan (token.span.through close.span)), c)
      else some (error (close.refuse .unmatchedParen), c)
  | .operator .sub =>
    let power ← signPower? token.kind
    let (operand, c) ← read? source scope levels power c
    some (operand.map fun e => .neg (token.span.through e.span) token.span e, c)
  | .operator .add =>
    let power ← signPower? token.kind
    let (operand, c) ← read? source scope levels power c
    some (operand.map fun e => e.withSpan (token.span.through e.span), c)
  | .closeParen => some (error ⟨.unmatchedParen, token.span⟩, c)
  | _ => some (error (token.refuse .unexpectedToken), c)
termination_by (levels, 3, 0)

/-- Reads operators, each with the operand on its right. It is checked that there were some tokens
before reading goes on. -/
def readSteps? (source : String) (scope : Scope) (levels least : Nat) (c : Cursor) :
    Option (Except Diagnostic (List (Step Expr)) × Cursor) := do
  let (token, here) ← peek? source c
  if isOperator token.kind then
    let (left, right) ← powers? token.kind
    if left < least then some (ok [], here)
    else
      let (token, next) ← next? source here
      let (operand, after) ← read? source scope levels right next
      match operand with
      | error d => some (error d, after)
      | ok operand =>
        let op ← operator? token.kind
        if _taken : after.bound < c.bound then
          let (steps, last) ← readSteps? source scope levels least after
          some (steps.map (⟨op, token.span, operand⟩ :: ·), last)
        else none
  else some (ok [], here)
termination_by (levels, 1, c.bound)

/-- Reads the arguments of a function in their parentheses. -/
def readCall? (source : String) (scope : Scope) (levels : Nat) (func : Func) (name : Span)
    (c : Cursor) : Option (Except Diagnostic Expr × Cursor) := do
  let (paren, c) ← next? source c
  if paren.kind = .openParen then
    let (token, c) ← peek? source c
    if token.kind = .closeParen then
      let (close, c) ← next? source c
      if func.arity.accepts 0 then some (ok (.call (name.through close.span) func []), c)
      else some (error ⟨.argumentCount, close.span⟩, c)
    else if func.arity.most? = some 0 then some (error ⟨.argumentCount, token.span⟩, c)
    else
      let (args, c) ← readArgs? source scope levels func.arity 1 c
      match args with
      | error d => some (error d, c)
      | ok (args, close) =>
        if func.arity.accepts args.length then
          some (ok (.call (name.through close) func args), c)
        else some (error ⟨.argumentCount, close⟩, c)
  else some (error (paren.refuse .unexpectedToken), c)
termination_by (levels, 2, 0)

/-- Reads an argument and those after it, up to the closing parenthesis. It is checked that there
were some tokens before reading goes on. -/
def readArgs? (source : String) (scope : Scope) (levels : Nat) (arity : Arity) (count : Nat)
    (c : Cursor) : Option (Except Diagnostic (List Expr × Span) × Cursor) := do
  let (arg, after) ← read? source scope levels 0 c
  match arg with
  | error d => some (error d, after)
  | ok arg =>
    let (token, next) ← next? source after
    match token.kind with
    | .comma =>
      if arity.most? = some count then
        let (surplus, last) ← peek? source next
        some (error ⟨.argumentCount, surplus.span⟩, last)
      else if _taken : next.bound < c.bound then
        let (rest, last) ← readArgs? source scope levels arity (count + 1) next
        some (rest.map fun rest => (arg :: rest.1, rest.2), last)
      else none
    | .closeParen => some (ok ([arg], token.span), next)
    | _ => some (error (token.refuse .unmatchedParen), next)
termination_by (levels, 1, c.bound)

end

end Checked

open Checked

/-- What reading with checks gives for a phrase. -/
def Phrase.checked? (source : String) (scope : Scope) :
    (phrase : Phrase) → Cursor → Option (Except Diagnostic phrase.Answer × Cursor)
  | expr levels least, c => read? source scope levels least c
  | operand levels, c => readOperand? source scope levels c
  | steps levels least, c => readSteps? source scope levels least c
  | call levels func name, c => readCall? source scope levels func name c
  | args levels arity count, c => readArgs? source scope levels arity count c

/-- No check fails when a phrase of a text is read. -/
theorem Reads.checked {source : String} {scope : Scope} {phrase : Phrase} {c last : Cursor}
    {answer : Except Diagnostic phrase.Answer} (h : Reads scope phrase c answer last)
    (inside : c.StandsIn source) : phrase.checked? source scope c = some (answer, last) := by
  induction h with simp only [Phrase.checked?] at *
  | tooDeep =>
    rw [read?, peek?_eq inside]
    simp [Cursor.fst_peek]
  | exprFails _ ih =>
    rw [read?, ih inside]
    rfl
  | @expr _ _ _ _ _ _ answer reads _ ih₁ ih₂ =>
    rw [read?, ih₁ inside]
    simp [ih₂ (reads.standsIn inside)]
  | number kind =>
    rw [readOperand?, next?_eq inside]
    simp [kind]
  | unbound kind found | var kind found | constant kind found =>
    rw [readOperand?, next?_eq inside]
    simp [kind, text?_eq inside kind rfl, found]
  | function kind found _ ih =>
    rw [readOperand?, next?_eq inside]
    simp [kind, text?_eq inside kind rfl, found, ih inside.next]
  | parenFails kind _ ih =>
    rw [readOperand?, next?_eq inside]
    simp [kind, ih inside.next]
  | paren kind reads close ih | parenOpen kind reads close ih =>
    rw [readOperand?, next?_eq inside]
    simp [kind, ih inside.next, next?_eq (reads.standsIn inside.next), close]
  | minus kind _ ih | plus kind _ ih =>
    rw [readOperand?, next?_eq inside]
    simp [kind, signPower?, ih inside.next]
  | closed kind =>
    rw [readOperand?, next?_eq inside]
    simp [kind]
  | noOperand starts other =>
    rw [readOperand?, next?_eq inside]
    simp only [Option.bind_eq_bind, Option.bind_some]
    split <;> simp_all [Token.Kind.startsOperand]
  | @stop _ _ c weak =>
    rw [readSteps?, peek?_eq inside]
    simp only [Option.bind_eq_bind, Option.bind_some, Cursor.fst_peek]
    cases kind : c.next.1.kind with
    | operator op => simp [isOperator, powers?, weak op kind]
    | _ => rfl
  | stepFails kind strong _ ih =>
    rw [readSteps?, peek?_eq inside]
    simp [Cursor.fst_peek, kind, isOperator, powers?, Nat.not_lt.mpr strong, next?_eq inside.peek,
      Cursor.next_of_peek, ih inside.next]
  | @step _ _ c middle _ _ _ _ kind strong reads _ ih₁ ih₂ =>
    have taken : middle.bound < c.bound :=
      Nat.lt_trans reads.bound_lt (Cursor.bound_next_lt_of_kind kind rfl)
    rw [readSteps?, peek?_eq inside]
    simp [Cursor.fst_peek, kind, isOperator, powers?, operator?, Nat.not_lt.mpr strong,
      next?_eq inside.peek, Cursor.next_of_peek, ih₁ inside.next, taken,
      ih₂ (reads.standsIn inside.next)]
  | callUnopened kind =>
    rw [readCall?, next?_eq inside]
    simp [kind]
  | callEmpty opening closing accepted | callMissing opening closing accepted =>
    rw [readCall?, next?_eq inside]
    simp [opening, peek?_eq inside.next, Cursor.fst_peek, closing, next?_eq inside.next.peek,
      Cursor.next_of_peek, accepted]
  | callSurplus opening closing none =>
    rw [readCall?, next?_eq inside]
    simp [opening, peek?_eq inside.next, Cursor.fst_peek, closing, none]
  | callFails opening closing some _ ih =>
    rw [readCall?, next?_eq inside]
    simp [opening, peek?_eq inside.next, Cursor.fst_peek, closing, some, ih inside.next.peek]
  | call opening closing some _ accepted ih | callTooFew opening closing some _ accepted ih =>
    rw [readCall?, next?_eq inside]
    simp [opening, peek?_eq inside.next, Cursor.fst_peek, closing, some, ih inside.next.peek,
      accepted]
  | argFails _ ih =>
    rw [readArgs?, ih inside]
    rfl
  | argSurplus reads comma most ih =>
    have after := reads.standsIn inside
    rw [readArgs?, ih inside]
    simp [next?_eq after, comma, most, peek?_eq after.next, Cursor.fst_peek]
  | @arg _ _ _ c middle _ _ _ reads comma most _ ih₁ ih₂ =>
    have after := reads.standsIn inside
    have taken : middle.next.2.bound < c.bound :=
      Nat.lt_trans (Cursor.bound_next_lt_of_kind comma rfl) reads.bound_lt
    rw [readArgs?, ih₁ inside]
    simp [next?_eq after, comma, most, taken, ih₂ after.next]
  | argLast reads close ih =>
    have after := reads.standsIn inside
    rw [readArgs?, ih inside]
    simp [next?_eq after, close]
  | argOpen reads comma close ih =>
    have after := reads.standsIn inside
    rw [readArgs?, ih inside]
    simp only [Option.bind_eq_bind, Option.bind_some, next?_eq after]

/-- No check fails when a sub-expression of a text is read. -/
theorem Checked.read?_eq {source : String} {scope : Scope} {levels least : Nat} {c last : Cursor}
    {answer : Except Diagnostic Expr} (h : Reads scope (.expr levels least) c answer last)
    (inside : c.StandsIn source) : read? source scope levels least c = some (answer, last) :=
  h.checked inside

end Formula
