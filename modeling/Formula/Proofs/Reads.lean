import Formula.Expr.Parser
import Formula.Proofs.Ahead

/-!
# Reading by rules

Reading as a relation between what is to be read, the cursor before it, the answer and
the cursor after it (`Reads`). There is a rule for each way in which reading can go, and
the relation is what the functions compute (`reads_iff`): a property of all readings is
proved by one induction over the rules, and a reading is shown to happen by giving
rules for it.
-/

namespace Formula

namespace Outcome

variable {α : Type} {limit : Nat}

/-- The value or what is wrong, and the cursor afterwards. -/
def answer : Outcome α limit → Except Diagnostic α × Cursor
  | ok value after _ => (.ok value, after)
  | error d after => (.error d, after)

theorem eq_ok {o : Outcome α limit} {value : α} {after : Cursor}
    (h : o.answer = (.ok value, after)) : ∃ lt, o = ok value after lt := by
  cases o with
  | ok _ _ lt => cases h; exact ⟨lt, rfl⟩
  | error => cases h

theorem eq_error {o : Outcome α limit} {d : Diagnostic} {after : Cursor}
    (h : o.answer = (.error d, after)) : o = error d after := by
  cases o with
  | ok => cases h
  | error => cases h; rfl

end Outcome

/-- Whether an operand can start with a token. -/
def Token.Kind.startsOperand : Token.Kind → Bool
  | number _ => true
  | name => true
  | openParen => true
  | operator .add => true
  | operator .sub => true
  | _ => false

/-- What can be asked for. -/
inductive Phrase where
  /-- A sub-expression. -/
  | expr (levels least : Nat)
  /-- The operand it starts with. -/
  | operand (levels : Nat)
  /-- The operators after it, each with an operand. -/
  | steps (levels least : Nat)
  /-- The parentheses of a call. -/
  | call (levels : Nat) (func : Func) (name : Span)
  /-- The arguments in them from the one with a number, and the closing parenthesis. -/
  | args (levels : Nat) (arity : Arity) (count : Nat)

namespace Phrase

/-- What reading gives. -/
abbrev Answer : Phrase → Type
  | expr _ _ => Expr
  | operand _ => Expr
  | steps _ _ => List (Step Expr)
  | call _ _ _ => Expr
  | args _ _ _ => List Expr × Span

/-- What reading a phrase gives, and the cursor afterwards. -/
def outcome (scope : Scope) :
    (phrase : Phrase) → Cursor → Except Diagnostic phrase.Answer × Cursor
  | expr levels least, c => (Expr.read scope levels least c).answer
  | operand levels, c => (Expr.readOperand scope levels c).answer
  | steps levels least, c => (Expr.readSteps scope levels least c).answer
  | call levels func name, c => (Expr.readCall scope levels func name c).answer
  | args levels arity count, c => (Expr.readArgs scope levels arity count c).answer

end Phrase

open Except (ok error)

/-- How phrases are read. The cursor `c` of a rule stands before the phrase, and `c.next`
is the token there with the cursor after it. -/
inductive Reads (scope : Scope) :
    (phrase : Phrase) → Cursor → Except Diagnostic phrase.Answer → Cursor → Prop where
  /-- No level is left to open. -/
  | tooDeep {least : Nat} {c : Cursor} :
      Reads scope (.expr 0 least) c (error ⟨.nestingTooDeep, c.next.1.span⟩) c.peek.2
  | exprFails {levels least : Nat} {c last : Cursor} {d : Diagnostic} :
      Reads scope (.operand levels) c (error d) last →
      Reads scope (.expr (levels + 1) least) c (error d) last
  /-- An operand and what follows it. -/
  | expr {levels least : Nat} {c after last : Cursor} {first : Expr}
      {answer : Except Diagnostic (List (Step Expr))} :
      Reads scope (.operand levels) c (ok first) after →
      Reads scope (.steps levels least) after answer last →
      Reads scope (.expr (levels + 1) least) c (answer.map first.chain) last
  | number {levels : Nat} {c : Cursor} {value : Float} :
      c.next.1.kind = .number value →
      Reads scope (.operand levels) c (ok (.literal c.next.1.span value)) c.next.2
  | unbound {levels : Nat} {c : Cursor} :
      c.next.1.kind = .name → scope.resolve c.next.1.text = none →
      Reads scope (.operand levels) c (error ⟨.unboundName, c.next.1.span⟩) c.next.2
  | var {levels : Nat} {c : Cursor} {cell : Cell} :
      c.next.1.kind = .name → scope.resolve c.next.1.text = some (.cell cell) →
      Reads scope (.operand levels) c (ok (.var c.next.1.span c.next.1.text cell)) c.next.2
  | constant {levels : Nat} {c : Cursor} {value : Float} :
      c.next.1.kind = .name → scope.resolve c.next.1.text = some (.constant value) →
      Reads scope (.operand levels) c (ok (.literal c.next.1.span value)) c.next.2
  | function {levels : Nat} {c last : Cursor} {primitive : Primitive}
      {answer : Except Diagnostic Expr} :
      c.next.1.kind = .name → scope.resolve c.next.1.text = some (.function primitive) →
      Reads scope (.call levels ⟨c.next.1.text, primitive⟩ c.next.1.span) c.next.2 answer last →
      Reads scope (.operand levels) c answer last
  | parenFails {levels : Nat} {c last : Cursor} {d : Diagnostic} :
      c.next.1.kind = .openParen →
      Reads scope (.expr levels 0) c.next.2 (error d) last →
      Reads scope (.operand levels) c (error d) last
  /-- An expression in parentheses, which belong to its span. -/
  | paren {levels : Nat} {c closing : Cursor} {inner : Expr} :
      c.next.1.kind = .openParen →
      Reads scope (.expr levels 0) c.next.2 (ok inner) closing →
      closing.next.1.kind = .closeParen →
      Reads scope (.operand levels) c
        (ok (inner.withSpan (c.next.1.span.through closing.next.1.span))) closing.next.2
  | parenOpen {levels : Nat} {c closing : Cursor} {inner : Expr} :
      c.next.1.kind = .openParen →
      Reads scope (.expr levels 0) c.next.2 (ok inner) closing →
      closing.next.1.kind ≠ .closeParen →
      Reads scope (.operand levels) c (error (closing.next.1.refuse .unmatchedParen))
        closing.next.2
  | minus {levels : Nat} {c last : Cursor} {answer : Except Diagnostic Expr} :
      c.next.1.kind = .operator .sub →
      Reads scope (.expr levels Operator.signPower) c.next.2 answer last →
      Reads scope (.operand levels) c
        (answer.map fun operand =>
          .neg (c.next.1.span.through operand.span) c.next.1.span operand) last
  | plus {levels : Nat} {c last : Cursor} {answer : Except Diagnostic Expr} :
      c.next.1.kind = .operator .add →
      Reads scope (.expr levels Operator.signPower) c.next.2 answer last →
      Reads scope (.operand levels) c
        (answer.map fun operand => operand.withSpan (c.next.1.span.through operand.span)) last
  | closed {levels : Nat} {c : Cursor} :
      c.next.1.kind = .closeParen →
      Reads scope (.operand levels) c (error ⟨.unmatchedParen, c.next.1.span⟩) c.next.2
  | noOperand {levels : Nat} {c : Cursor} :
      c.next.1.kind.startsOperand = false → c.next.1.kind ≠ .closeParen →
      Reads scope (.operand levels) c (error (c.next.1.refuse .unexpectedToken)) c.next.2
  /-- No operator follows that binds tightly enough. -/
  | stop {levels least : Nat} {c : Cursor} :
      (∀ op, c.next.1.kind = .operator op → op.leftPower < least) →
      Reads scope (.steps levels least) c (ok []) c.peek.2
  | stepFails {levels least : Nat} {c last : Cursor} {op : Operator} {d : Diagnostic} :
      c.next.1.kind = .operator op → least ≤ op.leftPower →
      Reads scope (.expr levels op.rightPower) c.next.2 (error d) last →
      Reads scope (.steps levels least) c (error d) last
  | step {levels least : Nat} {c after last : Cursor} {op : Operator} {operand : Expr}
      {answer : Except Diagnostic (List (Step Expr))} :
      c.next.1.kind = .operator op → least ≤ op.leftPower →
      Reads scope (.expr levels op.rightPower) c.next.2 (ok operand) after →
      Reads scope (.steps levels least) after answer last →
      Reads scope (.steps levels least) c
        (answer.map (⟨op, c.next.1.span, operand⟩ :: ·)) last
  | callUnopened {levels : Nat} {func : Func} {name : Span} {c : Cursor} :
      c.next.1.kind ≠ .openParen →
      Reads scope (.call levels func name) c (error (c.next.1.refuse .unexpectedToken)) c.next.2
  | callEmpty {levels : Nat} {func : Func} {name : Span} {c : Cursor} :
      c.next.1.kind = .openParen → c.next.2.next.1.kind = .closeParen →
      func.arity.accepts 0 = true →
      Reads scope (.call levels func name) c
        (ok (.call (name.through c.next.2.next.1.span) func [])) c.next.2.next.2
  | callMissing {levels : Nat} {func : Func} {name : Span} {c : Cursor} :
      c.next.1.kind = .openParen → c.next.2.next.1.kind = .closeParen →
      func.arity.accepts 0 = false →
      Reads scope (.call levels func name) c (error ⟨.argumentCount, c.next.2.next.1.span⟩)
        c.next.2.next.2
  /-- Any argument is one too many for a function of none. -/
  | callSurplus {levels : Nat} {func : Func} {name : Span} {c : Cursor} :
      c.next.1.kind = .openParen → c.next.2.next.1.kind ≠ .closeParen →
      func.arity.most? = some 0 →
      Reads scope (.call levels func name) c (error ⟨.argumentCount, c.next.2.next.1.span⟩)
        c.next.2.peek.2
  | callFails {levels : Nat} {func : Func} {name : Span} {c last : Cursor} {d : Diagnostic} :
      c.next.1.kind = .openParen → c.next.2.next.1.kind ≠ .closeParen →
      func.arity.most? ≠ some 0 →
      Reads scope (.args levels func.arity 1) c.next.2.peek.2 (error d) last →
      Reads scope (.call levels func name) c (error d) last
  | call {levels : Nat} {func : Func} {name close : Span} {c last : Cursor} {args : List Expr} :
      c.next.1.kind = .openParen → c.next.2.next.1.kind ≠ .closeParen →
      func.arity.most? ≠ some 0 →
      Reads scope (.args levels func.arity 1) c.next.2.peek.2 (ok (args, close)) last →
      func.arity.accepts args.length = true →
      Reads scope (.call levels func name) c (ok (.call (name.through close) func args)) last
  | callTooFew {levels : Nat} {func : Func} {name close : Span} {c last : Cursor}
      {args : List Expr} :
      c.next.1.kind = .openParen → c.next.2.next.1.kind ≠ .closeParen →
      func.arity.most? ≠ some 0 →
      Reads scope (.args levels func.arity 1) c.next.2.peek.2 (ok (args, close)) last →
      func.arity.accepts args.length = false →
      Reads scope (.call levels func name) c (error ⟨.argumentCount, close⟩) last
  | argFails {levels : Nat} {arity : Arity} {count : Nat} {c last : Cursor} {d : Diagnostic} :
      Reads scope (.expr levels 0) c (error d) last →
      Reads scope (.args levels arity count) c (error d) last
  | argSurplus {levels : Nat} {arity : Arity} {count : Nat} {c after : Cursor} {arg : Expr} :
      Reads scope (.expr levels 0) c (ok arg) after →
      after.next.1.kind = .comma → arity.most? = some count →
      Reads scope (.args levels arity count) c
        (error ⟨.argumentCount, after.next.2.next.1.span⟩) after.next.2.peek.2
  | arg {levels : Nat} {arity : Arity} {count : Nat} {c after last : Cursor} {arg : Expr}
      {answer : Except Diagnostic (List Expr × Span)} :
      Reads scope (.expr levels 0) c (ok arg) after →
      after.next.1.kind = .comma → arity.most? ≠ some count →
      Reads scope (.args levels arity (count + 1)) after.next.2 answer last →
      Reads scope (.args levels arity count) c
        (answer.map fun rest => (arg :: rest.1, rest.2)) last
  | argLast {levels : Nat} {arity : Arity} {count : Nat} {c after : Cursor} {arg : Expr} :
      Reads scope (.expr levels 0) c (ok arg) after →
      after.next.1.kind = .closeParen →
      Reads scope (.args levels arity count) c (ok ([arg], after.next.1.span)) after.next.2
  | argOpen {levels : Nat} {arity : Arity} {count : Nat} {c after : Cursor} {arg : Expr} :
      Reads scope (.expr levels 0) c (ok arg) after →
      after.next.1.kind ≠ .comma → after.next.1.kind ≠ .closeParen →
      Reads scope (.args levels arity count) c (error (after.next.1.refuse .unmatchedParen))
        after.next.2

/-! ## The functions follow the rules -/

section Outcome

attribute [local simp] Outcome.answer Except.map Cursor.fst_peek Cursor.next_of_peek

/-- What a reading by the rules gives is what the functions compute. -/
theorem Reads.outcome_eq {scope : Scope} {phrase : Phrase} {c last : Cursor}
    {answer : Except Diagnostic phrase.Answer} (h : Reads scope phrase c answer last) :
    phrase.outcome scope c = (answer, last) := by
  induction h with simp only [Phrase.outcome] at *
  | tooDeep => simp [Expr.read]
  | exprFails _ ih => rw [Expr.read, Outcome.eq_error ih]; rfl
  | @expr _ _ _ _ _ _ answer _ _ ih₁ ih₂ =>
    obtain ⟨_, e₁⟩ := Outcome.eq_ok ih₁
    rw [Expr.read, e₁]
    cases answer with
    | error => simp only [Outcome.eq_error ih₂]; rfl
    | ok =>
      obtain ⟨_, e₂⟩ := Outcome.eq_ok ih₂
      simp only [e₂]; rfl
  | number h => rw [Expr.readOperand]; split <;> simp_all
  | unbound h₁ h₂ => rw [Expr.readOperand]; split <;> simp_all
  | var h₁ h₂ => rw [Expr.readOperand]; split <;> simp_all
  | constant h₁ h₂ => rw [Expr.readOperand]; split <;> simp_all
  | @function _ _ _ _ answer h₁ h₂ _ ih =>
    cases answer with
    | error =>
      have e := Outcome.eq_error ih
      rw [Expr.readOperand]; split <;> simp_all
    | ok =>
      obtain ⟨_, e⟩ := Outcome.eq_ok ih
      rw [Expr.readOperand]; split <;> simp_all
  | parenFails h _ ih =>
    have e := Outcome.eq_error ih
    rw [Expr.readOperand]; split <;> simp_all
  | paren h₁ _ h₂ ih =>
    obtain ⟨_, e⟩ := Outcome.eq_ok ih
    rw [Expr.readOperand]; split <;> simp_all
  | parenOpen h₁ _ h₂ ih =>
    obtain ⟨_, e⟩ := Outcome.eq_ok ih
    rw [Expr.readOperand]; split <;> simp_all
  | @minus _ _ _ answer h _ ih =>
    cases answer with
    | error =>
      have e := Outcome.eq_error ih
      rw [Expr.readOperand]; split <;> simp_all
    | ok =>
      obtain ⟨_, e⟩ := Outcome.eq_ok ih
      rw [Expr.readOperand]; split <;> simp_all
  | @plus _ _ _ answer h _ ih =>
    cases answer with
    | error =>
      have e := Outcome.eq_error ih
      rw [Expr.readOperand]; split <;> simp_all
    | ok =>
      obtain ⟨_, e⟩ := Outcome.eq_ok ih
      rw [Expr.readOperand]; split <;> simp_all
  | closed h => rw [Expr.readOperand]; split <;> simp_all
  | noOperand h₁ h₂ => rw [Expr.readOperand]; split <;> simp_all [Token.Kind.startsOperand]
  | stop h =>
    rw [Expr.readSteps]
    split
    · rename_i op kind
      rw [if_pos (h op (by rwa [Cursor.fst_peek] at kind))]
      rfl
    · rfl
  | @stepFails _ _ c _ _ _ h₁ h₂ _ ih =>
    rw [← c.next_of_peek] at ih
    rw [Expr.readSteps]
    split
    · rename_i kind
      rw [Cursor.fst_peek, h₁] at kind
      cases kind
      simp only [if_neg (Nat.not_lt.mpr h₂), Outcome.eq_error ih, Outcome.answer]
    · simp_all
  | @step _ _ c _ _ _ _ answer h₁ h₂ _ _ ih₁ ih₂ =>
    rw [← c.next_of_peek] at ih₁
    obtain ⟨_, e₁⟩ := Outcome.eq_ok ih₁
    rw [Expr.readSteps]
    split
    · rename_i kind
      rw [Cursor.fst_peek, h₁] at kind
      cases kind
      cases answer with
      | error => simp [if_neg (Nat.not_lt.mpr h₂), e₁, Outcome.eq_error ih₂, -Cursor.next_of_peek]
      | ok =>
        obtain ⟨_, e₂⟩ := Outcome.eq_ok ih₂
        simp [if_neg (Nat.not_lt.mpr h₂), e₁, e₂, -Cursor.next_of_peek]
    · simp_all
  | callUnopened h => rw [Expr.readCall]; split <;> simp_all
  | callEmpty h₁ h₂ h₃ => rw [Expr.readCall]; split <;> simp_all
  | callMissing h₁ h₂ h₃ => rw [Expr.readCall]; split <;> simp_all
  | callSurplus h₁ h₂ h₃ => rw [Expr.readCall]; split <;> simp_all
  | callFails h₁ h₂ h₃ _ ih =>
    have e := Outcome.eq_error ih
    rw [Expr.readCall]; split <;> simp_all
  | call h₁ h₂ h₃ _ h₄ ih =>
    obtain ⟨_, e⟩ := Outcome.eq_ok ih
    rw [Expr.readCall]; split <;> simp_all
  | callTooFew h₁ h₂ h₃ _ h₄ ih =>
    obtain ⟨_, e⟩ := Outcome.eq_ok ih
    rw [Expr.readCall]; split <;> simp_all
  | argFails _ ih => rw [Expr.readArgs, Outcome.eq_error ih]; rfl
  | argSurplus _ h₁ h₂ ih =>
    obtain ⟨_, e⟩ := Outcome.eq_ok ih
    rw [Expr.readArgs, e]
    simp_all
  | @arg _ _ _ _ _ _ _ answer _ h₁ h₂ _ ih₁ ih₂ =>
    obtain ⟨_, e₁⟩ := Outcome.eq_ok ih₁
    rw [Expr.readArgs, e₁]
    cases answer with
    | error =>
      have e₂ := Outcome.eq_error ih₂
      simp_all
    | ok =>
      obtain ⟨_, e₂⟩ := Outcome.eq_ok ih₂
      simp_all
  | argLast _ h ih =>
    obtain ⟨_, e⟩ := Outcome.eq_ok ih
    rw [Expr.readArgs, e]
    simp_all
  | argOpen _ h₁ h₂ ih =>
    obtain ⟨_, e⟩ := Outcome.eq_ok ih
    rw [Expr.readArgs, e]
    simp_all

end Outcome

/-- What the cursor after an answer can still hand out at most. -/
def Phrase.limit : Phrase → Cursor → Nat
  | expr _ _, c => c.bound
  | operand _, c => c.bound
  | steps _ _, c => c.bound + 1
  | call _ _ _, c => c.bound
  | args _ _ _, c => c.bound

/-- An answer is not had without taking tokens. -/
theorem Reads.bound_lt {scope : Scope} {phrase : Phrase} {c last : Cursor}
    {answer : phrase.Answer} (h : Reads scope phrase c (ok answer) last) :
    last.bound < phrase.limit c := by
  have e := h.outcome_eq
  cases phrase with
  | expr => exact (Outcome.eq_ok e).choose
  | operand => exact (Outcome.eq_ok e).choose
  | steps => exact (Outcome.eq_ok e).choose
  | call => exact (Outcome.eq_ok e).choose
  | args => exact (Outcome.eq_ok e).choose

/-- What reading makes smaller: the tokens first, then the phrases that start with another
phrase and not with a token. -/
def Phrase.weight : Phrase → Cursor → Nat
  | expr _ _, c => 2 * c.bound + 1
  | operand _, c => 2 * c.bound
  | steps _ _, c => 2 * c.bound
  | call _ _ _, c => 2 * c.bound + 1
  | args _ _ _, c => 2 * c.bound + 2

/-- Some rule applies to every phrase at every cursor. -/
theorem exists_reads (scope : Scope) :
    (phrase : Phrase) → (c : Cursor) → ∃ answer last, Reads scope phrase c answer last
  | .expr 0 _, _ => ⟨_, _, .tooDeep⟩
  | .expr (levels + 1) least, c => by
    obtain ⟨_ | first, after, h⟩ := exists_reads scope (.operand levels) c
    · exact ⟨_, _, .exprFails h⟩
    · have lt : after.bound < c.bound := h.bound_lt
      obtain ⟨_, _, h'⟩ := exists_reads scope (.steps levels least) after
      exact ⟨_, _, .expr h h'⟩
  | .operand levels, c => by
    cases kind : c.next.1.kind with
    | number => exact ⟨_, _, .number kind⟩
    | name =>
      have lt : c.next.2.bound < c.bound := Cursor.bound_next_lt_of_kind kind rfl
      rcases found : scope.resolve c.next.1.text with _ | cell | value | primitive
      · exact ⟨_, _, .unbound kind found⟩
      · exact ⟨_, _, .var kind found⟩
      · exact ⟨_, _, .constant kind found⟩
      · obtain ⟨_, _, h⟩ :=
          exists_reads scope (.call levels ⟨c.next.1.text, primitive⟩ c.next.1.span) c.next.2
        exact ⟨_, _, .function kind found h⟩
    | openParen =>
      have lt : c.next.2.bound < c.bound := Cursor.bound_next_lt_of_kind kind rfl
      obtain ⟨_ | inner, closing, h⟩ := exists_reads scope (.expr levels 0) c.next.2
      · exact ⟨_, _, .parenFails kind h⟩
      · by_cases close : closing.next.1.kind = .closeParen
        · exact ⟨_, _, .paren kind h close⟩
        · exact ⟨_, _, .parenOpen kind h close⟩
    | operator op =>
      have lt : c.next.2.bound < c.bound := Cursor.bound_next_lt_of_kind kind rfl
      obtain ⟨_, _, h⟩ := exists_reads scope (.expr levels Operator.signPower) c.next.2
      cases op with
      | add => exact ⟨_, _, .plus kind h⟩
      | sub => exact ⟨_, _, .minus kind h⟩
      | mul | div | mod | pow => exact ⟨_, _, .noOperand (by rw [kind]; rfl) (by simp [kind])⟩
    | closeParen => exact ⟨_, _, .closed kind⟩
    | comma | finish | invalid =>
      exact ⟨_, _, .noOperand (by rw [kind]; rfl) (by simp [kind])⟩
  | .steps levels least, c => by
    by_cases strong : ∃ op, c.next.1.kind = .operator op ∧ least ≤ op.leftPower
    · obtain ⟨op, kind, le⟩ := strong
      have lt : c.next.2.bound < c.bound := Cursor.bound_next_lt_of_kind kind rfl
      obtain ⟨_ | operand, after, h⟩ := exists_reads scope (.expr levels op.rightPower) c.next.2
      · exact ⟨_, _, .stepFails kind le h⟩
      · have lt' : after.bound < c.next.2.bound := h.bound_lt
        obtain ⟨_, _, h'⟩ := exists_reads scope (.steps levels least) after
        exact ⟨_, _, .step kind le h h'⟩
    · exact ⟨_, _, .stop fun op kind => Nat.not_le.mp fun le => strong ⟨op, kind, le⟩⟩
  | .call levels func name, c => by
    by_cases kind : c.next.1.kind = .openParen
    · have lt : c.next.2.bound < c.bound := Cursor.bound_next_lt_of_kind kind rfl
      have le : c.next.2.peek.2.bound ≤ c.next.2.bound := c.next.2.bound_peek_le
      by_cases close : c.next.2.next.1.kind = .closeParen
      · cases accepted : func.arity.accepts 0 with
        | true => exact ⟨_, _, .callEmpty kind close accepted⟩
        | false => exact ⟨_, _, .callMissing kind close accepted⟩
      by_cases none : func.arity.most? = some 0
      · exact ⟨_, _, .callSurplus kind close none⟩
      obtain ⟨_ | ⟨args, _⟩, _, h⟩ :=
        exists_reads scope (.args levels func.arity 1) c.next.2.peek.2
      · exact ⟨_, _, .callFails kind close none h⟩
      cases accepted : func.arity.accepts args.length with
      | true => exact ⟨_, _, .call kind close none h accepted⟩
      | false => exact ⟨_, _, .callTooFew kind close none h accepted⟩
    · exact ⟨_, _, .callUnopened kind⟩
  | .args levels arity count, c => by
    obtain ⟨_ | arg, after, h⟩ := exists_reads scope (.expr levels 0) c
    · exact ⟨_, _, .argFails h⟩
    have lt : after.bound < c.bound := h.bound_lt
    by_cases comma : after.next.1.kind = .comma
    · have lt' : after.next.2.bound < after.bound := Cursor.bound_next_lt_of_kind comma rfl
      by_cases most : arity.most? = some count
      · exact ⟨_, _, .argSurplus h comma most⟩
      · obtain ⟨_, _, h'⟩ := exists_reads scope (.args levels arity (count + 1)) after.next.2
        exact ⟨_, _, .arg h comma most h'⟩
    by_cases close : after.next.1.kind = .closeParen
    · exact ⟨_, _, .argLast h close⟩
    · exact ⟨_, _, .argOpen h comma close⟩
termination_by phrase c => phrase.weight c
decreasing_by all_goals simp only [Phrase.weight]; omega

/-- The rules give what the functions compute, and nothing else. -/
theorem reads_iff {scope : Scope} {phrase : Phrase} {c last : Cursor}
    {answer : Except Diagnostic phrase.Answer} :
    Reads scope phrase c answer last ↔ phrase.outcome scope c = (answer, last) := by
  refine ⟨Reads.outcome_eq, fun h => ?_⟩
  obtain ⟨_, _, reads⟩ := exists_reads scope phrase c
  cases h.symm.trans reads.outcome_eq
  exact reads

/-- A parser gives an expression if it finds a token and the expression it reads takes all
tokens. -/
theorem Parser.parse_eq_ok_iff {scope : Scope} {p : Parser} {e : Expr} :
    (p.parse scope).1 = ok e ↔ p.cursor.ahead ≠ [] ∧
      ∃ last, Reads scope (.expr p.levels 0) p.cursor.peek.2 (ok e) last ∧ last.ahead = [] := by
  have finish_iff : p.cursor.ahead ≠ [] ↔ p.cursor.peek.1.isFinish = false := by
    rw [Ne, Cursor.ahead_eq_nil_iff, Cursor.fst_peek, Bool.not_eq_true]
  simp only [reads_iff, Phrase.outcome, Parser.parse, finish_iff]
  cases finish : p.cursor.peek.1.isFinish with
  | true => simp
  | false =>
    simp only [Bool.false_eq_true, if_false, true_and]
    cases read : Expr.read scope p.levels 0 p.cursor.peek.2 with
    | error => simp [Outcome.answer]
    | ok e' last =>
      simp only [Outcome.answer, Prod.mk.injEq, ok.injEq, Cursor.ahead_eq_nil_iff]
      constructor
      · intro h
        split at h <;> cases h
        rename_i kind
        exact ⟨last, ⟨rfl, rfl⟩, by rw [Token.isFinish, kind]; rfl⟩
      · rintro ⟨_, ⟨rfl, rfl⟩, finished⟩
        cases kind : last.next.1.kind <;> simp_all [Token.isFinish, Token.Kind.isFinish]

end Formula
