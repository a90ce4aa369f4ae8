import Formula.Proofs.Lookahead
import Formula.Proofs.Transparent

/-!
# What is done while a text is read

`Phrase.acts` is the log of all that is done while a phrase is read: a level is opened, closed or
refused for every sub-expression, and the cursor is asked to show a token or to hand it out. Like
the log of the levels it follows the reading function step by step, and without what the cursor is
asked it is that log (`Reads.moves_acts`).
-/

namespace Formula

open Except (ok error)

/-- What reading does: it opens and closes levels, and asks the cursor for tokens. -/
inductive Act where
  | moved (move : Move)
  | asked (request : Request)

namespace Act

/-- What is done with the levels. -/
def move? : Act → Option Move
  | moved move => some move
  | asked _ => none

/-- What the cursor is asked. -/
def request? : Act → Option Request
  | moved _ => none
  | asked request => some request

/-- What is done with the levels, in its order. -/
def moves (log : List Act) : List Move :=
  log.filterMap move?

/-- What the cursor is asked, in its order. -/
def requests (log : List Act) : List Request :=
  log.filterMap request?

section

variable (move : Move) (request : Request) (a b log : List Act)

@[simp] theorem moves_nil : moves [] = [] := rfl

@[simp] theorem moves_moved : moves (moved move :: log) = move :: moves log := rfl

@[simp] theorem moves_asked : moves (asked request :: log) = moves log := rfl

@[simp] theorem moves_append : moves (a ++ b) = moves a ++ moves b := List.filterMap_append

@[simp] theorem requests_nil : requests [] = [] := rfl

@[simp] theorem requests_moved : requests (moved move :: log) = requests log := rfl

@[simp] theorem requests_asked : requests (asked request :: log) = request :: requests log := rfl

end

end Act

/-- All that is done while a phrase is read, in its order. -/
def Phrase.acts (scope : Scope) : Phrase → Cursor → List Act
  | expr 0 _, c => [.moved (.refused c.next.1), .asked .peek]
  | expr (levels + 1) least, c =>
    let inside :=
      (operand levels).acts scope c ++
        match Expr.readOperand scope levels c with
        | .error _ _ => []
        | .ok _ after _ => (steps levels least).acts scope after
    .moved (.opened c.next.1) :: (inside ++ [.moved .closed])
  | operand levels, c =>
    .asked .next ::
      match kind : c.next.1.kind with
      | .name =>
        have : c.next.2.bound < c.bound := Cursor.bound_next_lt_of_kind kind rfl
        match scope.resolve c.next.1.text with
        | some (.function primitive) =>
          (call levels ⟨c.next.1.text, primitive⟩ c.next.1.span).acts scope c.next.2
        | _ => []
      | .openParen =>
        have : c.next.2.bound < c.bound := Cursor.bound_next_lt_of_kind kind rfl
        (expr levels 0).acts scope c.next.2 ++
          match Expr.read scope levels 0 c.next.2 with
          | .error _ _ => []
          | .ok _ _ _ => [.asked .next]
      | .operator .sub | .operator .add =>
        have : c.next.2.bound < c.bound := Cursor.bound_next_lt_of_kind kind rfl
        (expr levels Operator.signPower).acts scope c.next.2
      | _ => []
  | steps levels least, c =>
    .asked .peek ::
      match kind : c.next.1.kind with
      | .operator op =>
        if op.leftPower < least then []
        else
          have : c.next.2.bound < c.bound := Cursor.bound_next_lt_of_kind kind rfl
          .asked .next ::
            ((expr levels op.rightPower).acts scope c.next.2 ++
              match Expr.read scope levels op.rightPower c.next.2 with
              | .error _ _ => []
              | .ok _ after _ => (steps levels least).acts scope after)
      | _ => []
  | call levels func _, c =>
    .asked .next ::
      if kind : c.next.1.kind = .openParen then
        have : c.next.2.bound < c.bound := Cursor.bound_next_lt_of_kind kind rfl
        have : c.next.2.peek.2.bound ≤ c.next.2.bound := c.next.2.bound_peek_le
        .asked .peek ::
          if c.next.2.next.1.kind = .closeParen then [.asked .next]
          else if func.arity.most? = some 0 then []
          else (args levels func.arity 1).acts scope c.next.2.peek.2
      else []
  | args levels arity count, c =>
    (expr levels 0).acts scope c ++
      match Expr.read scope levels 0 c with
      | .error _ _ => []
      | .ok _ after _ =>
        .asked .next ::
          if comma : after.next.1.kind = .comma then
            have : after.next.2.bound < after.bound := Cursor.bound_next_lt_of_kind comma rfl
            if arity.most? = some count then [.asked .peek]
            else (args levels arity (count + 1)).acts scope after.next.2
          else []
termination_by phrase c => phrase.weight c
decreasing_by all_goals simp only [Phrase.weight]; omega

namespace Phrase

variable {scope : Scope} {levels least count : Nat} {arity : Arity} {func : Func} {name : Span}
  {c after last : Cursor} {d : Diagnostic} {first : Expr}

/-! ## What is done for a phrase and for its parts -/

theorem acts_refused :
    (expr 0 least).acts scope c = [.moved (.refused c.next.1), .asked .peek] := by
  rw [acts]

theorem acts_exprFails (h : Reads scope (.operand levels) c (error d) last) :
    (expr (levels + 1) least).acts scope c =
      .moved (.opened c.next.1) :: ((operand levels).acts scope c ++ [.moved .closed]) := by
  rw [acts, Outcome.eq_error (reads_iff.mp h), List.append_nil]

theorem acts_expr (h : Reads scope (.operand levels) c (ok first) after) :
    (expr (levels + 1) least).acts scope c =
      .moved (.opened c.next.1) :: (((operand levels).acts scope c ++
        (steps levels least).acts scope after) ++ [.moved .closed]) := by
  obtain ⟨_, e⟩ := Outcome.eq_ok (reads_iff.mp h)
  rw [acts, e]

theorem acts_atom (paren : c.next.1.kind ≠ .openParen) (sub : c.next.1.kind ≠ .operator .sub)
    (add : c.next.1.kind ≠ .operator .add) (call : c.next.1.kind = .name →
      ∀ primitive, scope.resolve c.next.1.text ≠ some (.function primitive)) :
    (operand levels).acts scope c = [.asked .next] := by
  rw [acts]
  congr 1
  split
  · rename_i kind
    split
    · rename_i primitive found
      exact absurd found (call kind primitive)
    · rfl
  all_goals first | contradiction | rfl

theorem acts_function {primitive : Primitive} (kind : c.next.1.kind = .name)
    (found : scope.resolve c.next.1.text = some (.function primitive)) :
    (operand levels).acts scope c = .asked .next ::
      (call levels ⟨c.next.1.text, primitive⟩ c.next.1.span).acts scope c.next.2 := by
  rw [acts]
  congr 1
  split <;> simp_all

theorem acts_parenFails (kind : c.next.1.kind = .openParen)
    (h : Reads scope (.expr levels 0) c.next.2 (error d) last) :
    (operand levels).acts scope c = .asked .next :: (expr levels 0).acts scope c.next.2 := by
  have e := Outcome.eq_error (reads_iff.mp h)
  rw [acts]
  congr 1
  split <;> simp_all

theorem acts_paren (kind : c.next.1.kind = .openParen)
    (h : Reads scope (.expr levels 0) c.next.2 (ok first) after) :
    (operand levels).acts scope c =
      .asked .next :: ((expr levels 0).acts scope c.next.2 ++ [.asked .next]) := by
  obtain ⟨_, e⟩ := Outcome.eq_ok (reads_iff.mp h)
  rw [acts]
  congr 1
  split <;> simp_all

theorem acts_sign (kind : c.next.1.kind = .operator .sub ∨ c.next.1.kind = .operator .add) :
    (operand levels).acts scope c =
      .asked .next :: (expr levels Operator.signPower).acts scope c.next.2 := by
  rw [acts]
  congr 1
  split <;> simp_all

theorem acts_stop (weak : ∀ op, c.next.1.kind = .operator op → op.leftPower < least) :
    (steps levels least).acts scope c = [.asked .peek] := by
  rw [acts]
  congr 1
  split
  · rename_i op kind
    rw [if_pos (weak op kind)]
  · rfl

theorem acts_stepFails {op : Operator} (kind : c.next.1.kind = .operator op)
    (strong : least ≤ op.leftPower)
    (h : Reads scope (.expr levels op.rightPower) c.next.2 (error d) last) :
    (steps levels least).acts scope c =
      .asked .peek :: .asked .next :: (expr levels op.rightPower).acts scope c.next.2 := by
  have e := Outcome.eq_error (reads_iff.mp h)
  rw [acts]
  congr 1
  split
  · rename_i kind'
    cases kind.symm.trans kind'
    rw [if_neg (Nat.not_lt.mpr strong), e, List.append_nil]
  · rename_i none
    exact absurd kind (none op)

theorem acts_step {op : Operator} (kind : c.next.1.kind = .operator op)
    (strong : least ≤ op.leftPower)
    (h : Reads scope (.expr levels op.rightPower) c.next.2 (ok first) after) :
    (steps levels least).acts scope c =
      .asked .peek :: .asked .next :: ((expr levels op.rightPower).acts scope c.next.2 ++
        (steps levels least).acts scope after) := by
  obtain ⟨_, e⟩ := Outcome.eq_ok (reads_iff.mp h)
  rw [acts]
  congr 1
  split
  · rename_i kind'
    cases kind.symm.trans kind'
    rw [if_neg (Nat.not_lt.mpr strong), e]
  · rename_i none
    exact absurd kind (none op)

theorem acts_callUnopened (h : c.next.1.kind ≠ .openParen) :
    (call levels func name).acts scope c = [.asked .next] := by
  rw [acts, dif_neg h]

theorem acts_callEmpty (opening : c.next.1.kind = .openParen)
    (closing : c.next.2.next.1.kind = .closeParen) :
    (call levels func name).acts scope c = [.asked .next, .asked .peek, .asked .next] := by
  rw [acts, dif_pos opening, if_pos closing]

theorem acts_callSurplus (opening : c.next.1.kind = .openParen)
    (closing : c.next.2.next.1.kind ≠ .closeParen) (none : func.arity.most? = some 0) :
    (call levels func name).acts scope c = [.asked .next, .asked .peek] := by
  rw [acts, dif_pos opening, if_neg closing, if_pos none]

theorem acts_call (opening : c.next.1.kind = .openParen)
    (closing : c.next.2.next.1.kind ≠ .closeParen) (none : func.arity.most? ≠ some 0) :
    (call levels func name).acts scope c =
      .asked .next :: .asked .peek :: (args levels func.arity 1).acts scope c.next.2.peek.2 := by
  rw [acts, dif_pos opening, if_neg closing, if_neg none]

theorem acts_argFails (h : Reads scope (.expr levels 0) c (error d) last) :
    (args levels arity count).acts scope c = (expr levels 0).acts scope c := by
  rw [acts, Outcome.eq_error (reads_iff.mp h), List.append_nil]

theorem acts_argLast (h : Reads scope (.expr levels 0) c (ok first) after)
    (comma : after.next.1.kind ≠ .comma) :
    (args levels arity count).acts scope c = (expr levels 0).acts scope c ++ [.asked .next] := by
  obtain ⟨_, e⟩ := Outcome.eq_ok (reads_iff.mp h)
  rw [acts, e]
  simp only
  rw [dif_neg comma]

theorem acts_argSurplus (h : Reads scope (.expr levels 0) c (ok first) after)
    (comma : after.next.1.kind = .comma) (most : arity.most? = some count) :
    (args levels arity count).acts scope c =
      (expr levels 0).acts scope c ++ [.asked .next, .asked .peek] := by
  obtain ⟨_, e⟩ := Outcome.eq_ok (reads_iff.mp h)
  rw [acts, e]
  simp only
  rw [dif_pos comma, if_pos most]

theorem acts_arg (h : Reads scope (.expr levels 0) c (ok first) after)
    (comma : after.next.1.kind = .comma) (more : arity.most? ≠ some count) :
    (args levels arity count).acts scope c = (expr levels 0).acts scope c ++
      .asked .next :: (args levels arity (count + 1)).acts scope after.next.2 := by
  obtain ⟨_, e⟩ := Outcome.eq_ok (reads_iff.mp h)
  rw [acts, e]
  simp only
  rw [dif_pos comma, if_neg more]

/-- The first thing that is done for an operand is to take a token. -/
theorem exists_acts_operand (scope : Scope) (levels : Nat) (c : Cursor) :
    ∃ log, (operand levels).acts scope c = .asked .next :: log := by
  rw [acts]
  exact ⟨_, rfl⟩

end Phrase

open Phrase

/-- The levels that are opened and closed are those of the log of the levels. -/
theorem Reads.moves_acts {scope : Scope} {phrase : Phrase} {c last : Cursor}
    {answer : Except Diagnostic phrase.Answer} (h : Reads scope phrase c answer last) :
    Act.moves (phrase.acts scope c) = phrase.moves scope c := by
  induction h with
  | tooDeep => rw [acts_refused, moves_refused]; rfl
  | exprFails reads ih => simp [acts_exprFails reads, moves_exprFails reads, ih]
  | expr reads _ ih₁ ih₂ => simp [acts_expr reads, moves_expr reads, ih₁, ih₂]
  | number kind | closed kind =>
    rw [acts_atom (by simp [kind]) (by simp [kind]) (by simp [kind]) (by simp [kind]),
      moves_atom (by simp [kind]) (by simp [kind]) (by simp [kind]) (by simp [kind])]
    rfl
  | unbound kind found | var kind found | constant kind found =>
    rw [acts_atom (by simp [kind]) (by simp [kind]) (by simp [kind]) (by simp [found]),
      moves_atom (by simp [kind]) (by simp [kind]) (by simp [kind]) (by simp [found])]
    rfl
  | noOperand starts _ =>
    rw [acts_atom, moves_atom]
    · rfl
    all_goals
      intro kind
      simp [kind, Token.Kind.startsOperand] at starts
  | function kind found _ ih => simp [acts_function kind found, moves_function kind found, ih]
  | parenFails kind reads ih => simp [acts_parenFails kind reads, moves_paren kind, ih]
  | paren kind reads _ ih | parenOpen kind reads _ ih =>
    simp [acts_paren kind reads, moves_paren kind, ih]
  | minus kind _ ih => simp [acts_sign (.inl kind), moves_sign (.inl kind), ih]
  | plus kind _ ih => simp [acts_sign (.inr kind), moves_sign (.inr kind), ih]
  | stop weak => rw [acts_stop weak, moves_stop weak]; rfl
  | stepFails kind strong reads ih =>
    simp [acts_stepFails kind strong reads, moves_stepFails kind strong reads, ih]
  | step kind strong reads _ ih₁ ih₂ =>
    simp [acts_step kind strong reads, moves_step kind strong reads, ih₁, ih₂]
  | callUnopened kind =>
    rw [acts_callUnopened kind, moves_noCall fun opening => absurd opening kind]
    rfl
  | callEmpty opening closing | callMissing opening closing =>
    rw [acts_callEmpty opening closing, moves_noCall fun _ => .inl closing]
    rfl
  | callSurplus opening closing none =>
    rw [acts_callSurplus opening closing none, moves_noCall fun _ => .inr none]
    rfl
  | callFails opening closing none _ ih | call opening closing none _ _ ih
  | callTooFew opening closing none _ _ ih =>
    simp [acts_call opening closing none, moves_call opening closing none, ih]
  | argFails reads ih => rw [acts_argFails reads, moves_argFails reads, ih]
  | argSurplus reads comma most ih =>
    simp [acts_argSurplus reads comma most, moves_argLast reads fun _ => most, ih]
  | arg reads comma more _ ih₁ ih₂ =>
    simp [acts_arg reads comma more, moves_arg reads comma more, ih₁, ih₂]
  | @argLast _ _ _ _ after _ reads close ih =>
    have comma : after.next.1.kind ≠ .comma := by simp [close]
    simp [acts_argLast reads comma, moves_argLast reads fun h => absurd h comma, ih]
  | argOpen reads comma _ ih =>
    simp [acts_argLast reads comma, moves_argLast reads fun h => absurd h comma, ih]

end Formula
