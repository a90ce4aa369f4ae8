import Formula.Proofs.Ending
import Formula.Proofs.Levels
import Formula.Proofs.Replay

/-!
# The levels a reading opens

`Phrase.moves` is the log of the levels that are opened and closed while a phrase is read. It
follows the reading function step by step, and keeps of it nothing but the levels.

The log is balanced unless a level is refused, which is when reading fails for its depth
(`Reads.logged`). That does not happen if there are more levels than tokens.
-/

namespace Formula

open Except (ok error)

/-- The levels that are opened and closed while a phrase is read, in their order. -/
def Phrase.moves (scope : Scope) : Phrase → Cursor → List Move
  | expr 0 _, c => [.refused c.next.1]
  | expr (levels + 1) least, c =>
    let inside :=
      (operand levels).moves scope c ++
        match Expr.readOperand scope levels c with
        | .error _ _ => []
        | .ok _ after _ => (steps levels least).moves scope after
    .opened c.next.1 :: (inside ++ [.closed])
  | operand levels, c =>
    match kind : c.next.1.kind with
    | .name =>
      have : c.next.2.bound < c.bound := Cursor.bound_next_lt_of_kind kind rfl
      match scope.resolve c.next.1.text with
      | some (.function primitive) =>
        (call levels ⟨c.next.1.text, primitive⟩ c.next.1.span).moves scope c.next.2
      | _ => []
    | .openParen =>
      have : c.next.2.bound < c.bound := Cursor.bound_next_lt_of_kind kind rfl
      (expr levels 0).moves scope c.next.2
    | .operator .sub | .operator .add =>
      have : c.next.2.bound < c.bound := Cursor.bound_next_lt_of_kind kind rfl
      (expr levels Operator.signPower).moves scope c.next.2
    | _ => []
  | steps levels least, c =>
    match kind : c.next.1.kind with
    | .operator op =>
      if op.leftPower < least then []
      else
        have : c.next.2.bound < c.bound := Cursor.bound_next_lt_of_kind kind rfl
        (expr levels op.rightPower).moves scope c.next.2 ++
          match Expr.read scope levels op.rightPower c.next.2 with
          | .error _ _ => []
          | .ok _ after _ => (steps levels least).moves scope after
    | _ => []
  | call levels func _, c =>
    if kind : c.next.1.kind = .openParen then
      have : c.next.2.bound < c.bound := Cursor.bound_next_lt_of_kind kind rfl
      have : c.next.2.peek.2.bound ≤ c.next.2.bound := c.next.2.bound_peek_le
      if c.next.2.next.1.kind = .closeParen ∨ func.arity.most? = some 0 then []
      else (args levels func.arity 1).moves scope c.next.2.peek.2
    else []
  | args levels arity count, c =>
    (expr levels 0).moves scope c ++
      match Expr.read scope levels 0 c with
      | .error _ _ => []
      | .ok _ after _ =>
        if comma : after.next.1.kind = .comma then
          have : after.next.2.bound < after.bound := Cursor.bound_next_lt_of_kind comma rfl
          if arity.most? = some count then []
          else (args levels arity (count + 1)).moves scope after.next.2
        else []
termination_by phrase c => phrase.weight c
decreasing_by all_goals simp only [Phrase.weight]; omega

namespace Phrase

variable {scope : Scope} {levels least count : Nat} {arity : Arity} {func : Func} {name : Span}
  {c after last : Cursor} {d : Diagnostic} {first : Expr}

/-! ## The log of a phrase from those of its parts -/

theorem moves_refused : (expr 0 least).moves scope c = [.refused c.next.1] := by
  rw [moves]

theorem moves_exprFails (h : Reads scope (.operand levels) c (error d) last) :
    (expr (levels + 1) least).moves scope c =
      .opened c.next.1 :: ((operand levels).moves scope c ++ [.closed]) := by
  rw [moves, Outcome.eq_error (reads_iff.mp h), List.append_nil]

theorem moves_expr (h : Reads scope (.operand levels) c (ok first) after) :
    (expr (levels + 1) least).moves scope c =
      .opened c.next.1 :: (((operand levels).moves scope c ++
        (steps levels least).moves scope after) ++ [.closed]) := by
  obtain ⟨_, e⟩ := Outcome.eq_ok (reads_iff.mp h)
  rw [moves, e]

theorem moves_atom (paren : c.next.1.kind ≠ .openParen) (sub : c.next.1.kind ≠ .operator .sub)
    (add : c.next.1.kind ≠ .operator .add) (call : c.next.1.kind = .name →
      ∀ primitive, scope.resolve c.next.1.text ≠ some (.function primitive)) :
    (operand levels).moves scope c = [] := by
  rw [moves]
  split
  · rename_i kind
    split
    · rename_i primitive found
      exact absurd found (call kind primitive)
    · rfl
  all_goals first | contradiction | rfl

theorem moves_function {primitive : Primitive} (kind : c.next.1.kind = .name)
    (found : scope.resolve c.next.1.text = some (.function primitive)) :
    (operand levels).moves scope c =
      (call levels ⟨c.next.1.text, primitive⟩ c.next.1.span).moves scope c.next.2 := by
  rw [moves]
  split <;> simp_all

theorem moves_paren (kind : c.next.1.kind = .openParen) :
    (operand levels).moves scope c = (expr levels 0).moves scope c.next.2 := by
  rw [moves]
  split <;> simp_all

theorem moves_sign (kind : c.next.1.kind = .operator .sub ∨ c.next.1.kind = .operator .add) :
    (operand levels).moves scope c =
      (expr levels Operator.signPower).moves scope c.next.2 := by
  rw [moves]
  split <;> simp_all

theorem moves_stop (weak : ∀ op, c.next.1.kind = .operator op → op.leftPower < least) :
    (steps levels least).moves scope c = [] := by
  rw [moves]
  split
  · rename_i op kind
    rw [if_pos (weak op kind)]
  · rfl

theorem moves_stepFails {op : Operator} (kind : c.next.1.kind = .operator op)
    (strong : least ≤ op.leftPower)
    (h : Reads scope (.expr levels op.rightPower) c.next.2 (error d) last) :
    (steps levels least).moves scope c = (expr levels op.rightPower).moves scope c.next.2 := by
  have e := Outcome.eq_error (reads_iff.mp h)
  rw [moves]
  split
  · rename_i kind'
    cases kind.symm.trans kind'
    rw [if_neg (Nat.not_lt.mpr strong), e, List.append_nil]
  · rename_i none
    exact absurd kind (none op)

theorem moves_step {op : Operator} (kind : c.next.1.kind = .operator op)
    (strong : least ≤ op.leftPower)
    (h : Reads scope (.expr levels op.rightPower) c.next.2 (ok first) after) :
    (steps levels least).moves scope c = (expr levels op.rightPower).moves scope c.next.2 ++
      (steps levels least).moves scope after := by
  obtain ⟨_, e⟩ := Outcome.eq_ok (reads_iff.mp h)
  rw [moves]
  split
  · rename_i kind'
    cases kind.symm.trans kind'
    rw [if_neg (Nat.not_lt.mpr strong), e]
  · rename_i none
    exact absurd kind (none op)

theorem moves_call (opening : c.next.1.kind = .openParen)
    (closing : c.next.2.next.1.kind ≠ .closeParen) (none : func.arity.most? ≠ some 0) :
    (call levels func name).moves scope c =
      (args levels func.arity 1).moves scope c.next.2.peek.2 := by
  rw [moves]
  simp [opening, closing, none]

theorem moves_noCall (h : c.next.1.kind = .openParen →
      c.next.2.next.1.kind = .closeParen ∨ func.arity.most? = some 0) :
    (call levels func name).moves scope c = [] := by
  rw [moves]
  split
  · rename_i opening
    rw [if_pos (h opening)]
  · rfl

theorem moves_argFails (h : Reads scope (.expr levels 0) c (error d) last) :
    (args levels arity count).moves scope c = (expr levels 0).moves scope c := by
  rw [moves, Outcome.eq_error (reads_iff.mp h), List.append_nil]

theorem moves_argLast (h : Reads scope (.expr levels 0) c (ok first) after)
    (ends : after.next.1.kind = .comma → arity.most? = some count) :
    (args levels arity count).moves scope c = (expr levels 0).moves scope c := by
  obtain ⟨_, e⟩ := Outcome.eq_ok (reads_iff.mp h)
  rw [moves, e]
  simp only
  split
  · rename_i comma
    rw [if_pos (ends comma), List.append_nil]
  · rw [List.append_nil]

theorem moves_arg (h : Reads scope (.expr levels 0) c (ok first) after)
    (comma : after.next.1.kind = .comma) (more : arity.most? ≠ some count) :
    (args levels arity count).moves scope c = (expr levels 0).moves scope c ++
      (args levels arity (count + 1)).moves scope after.next.2 := by
  obtain ⟨_, e⟩ := Outcome.eq_ok (reads_iff.mp h)
  rw [moves, e]
  simp only
  rw [dif_pos comma, if_neg more]

end Phrase

/-- The tokens of a text that are none are refused for what they are, and never for how deep
they stand. -/
def Cursor.Plain (c : Cursor) : Prop :=
  ∀ k own, (c.nth k).kind = .invalid own → own.isRefusal = true

theorem Cursor.Plain.past {c last : Cursor} {k : Nat} (h : c.Plain) (hp : c.Past k last) :
    last.Plain := by
  intro j own kind
  rw [hp.nth_eq] at kind
  exact h (k + j) own kind

theorem Cursor.Plain.next {c : Cursor} (h : c.Plain) : c.next.2.Plain :=
  h.past (.next c)

/-- A token that is none is refused for what it is. -/
theorem Token.isRefusal_take {c : Char} {rest : List Char} {own : Fault}
    (h : (take c rest).kind = .invalid own) : own.isRefusal = true := by
  simp only [take] at h
  split at h
  · simp only [Kind.ofNumeral] at h
    split at h
    · cases h; rfl
    · split at h
      · cases h
      · cases h; rfl
  · split at h
    · cases h
    · simp only [take.single] at h
      split at h <;> try cases h
      split at h <;> cases h
      rfl

theorem Token.isRefusal_scan {position : Nat} {text : List Char} {own : Fault}
    (h : (scan position text).1.kind = .invalid own) : own.isRefusal = true := by
  simp only [scan] at h
  split at h
  · cases h
  · exact isRefusal_take h

theorem plain_ofString (source : String) : (Cursor.ofString source).Plain := by
  intro k own kind
  rw [Cursor.nth, Cursor.next_eq_fetch (Cursor.waiting_skip rfl k)] at kind
  exact Token.isRefusal_scan kind

theorem Cursor.Plain.isRefusal_refuse {c : Cursor} (h : c.Plain) {fault : Fault}
    (refusal : fault.isRefusal = true) : (c.next.1.refuse fault).fault.isRefusal = true := by
  unfold Token.refuse
  split
  · rename_i own kind
    exact h 0 own kind
  · exact refusal

theorem Cursor.Plain.refuse {c : Cursor} (h : c.Plain) {fault : Fault}
    (refusal : fault.isRefusal = true) :
    (c.next.1.refuse fault).fault ≠ .nestingTooDeep := by
  have kept := h.isRefusal_refuse refusal
  intro deep
  rw [deep] at kept
  cases kept

namespace Phrase

/-- How many levels may be opened for a phrase. -/
def levels : Phrase → Nat
  | expr levels _ => levels
  | operand levels => levels
  | steps levels _ => levels
  | call levels _ _ => levels
  | args levels _ _ => levels

/-- There are levels enough for all tokens ahead. -/
def Ample : Phrase → Cursor → Prop
  | expr levels _, c => c.bound < levels
  | operand levels, c => c.bound ≤ levels
  | steps levels _, c => c.bound ≤ levels
  | call levels _ _, c => c.bound ≤ levels
  | args levels _ _, c => c.bound < levels

/-- What is said of the log of an answer: it is balanced, or it is cut, the answer is that
nesting is too deep, and there were not levels enough. -/
def Logged (phrase : Phrase) (c : Cursor) : Except Diagnostic phrase.Answer → List Move → Prop
  | ok _, log => Balanced phrase.levels log
  | error d, log =>
    (Balanced phrase.levels log ∧ (c.Plain → d.fault ≠ .nestingTooDeep)) ∨
      (Cut phrase.levels log ∧ d.fault = .nestingTooDeep ∧ ¬ phrase.Ample c)

namespace Logged

variable {phrase part : Phrase} {c middle : Cursor} {d : Diagnostic} {a b log : List Move}

/-- An error that is not for the depth, after a balanced log. -/
theorem fails (ha : Balanced phrase.levels log) (h : c.Plain → d.fault ≠ .nestingTooDeep) :
    phrase.Logged c (error d) log :=
  .inl ⟨ha, h⟩

/-- An error of a part after a balanced log. -/
theorem within (h : part.Logged middle (error d) b) (ha : Balanced phrase.levels a)
    (same : part.levels = phrase.levels) (plain : c.Plain → middle.Plain)
    (ample : phrase.Ample c → part.Ample middle) : phrase.Logged c (error d) (a ++ b) := by
  simp only [Logged, same] at h ⊢
  obtain ⟨balanced, fault⟩ | ⟨cut, deep, scarce⟩ := h
  · exact .inl ⟨ha.append balanced, fun h => fault (plain h)⟩
  · exact .inr ⟨.append ha cut, deep, fun h => scarce (ample h)⟩

/-- An error of a part with which the log starts. -/
theorem start (h : part.Logged middle (error d) log) (same : part.levels = phrase.levels)
    (plain : c.Plain → middle.Plain) (ample : phrase.Ample c → part.Ample middle) :
    phrase.Logged c (error d) log :=
  within h (.nil _) same plain ample

/-- An error inside a level that is opened. -/
theorem nest {levels least : Nat} (h : (operand levels).Logged c (error d) log) (first : Token) :
    (expr (levels + 1) least).Logged c (error d) (.opened first :: (log ++ [.closed])) := by
  obtain ⟨balanced, fault⟩ | ⟨cut, deep, scarce⟩ := h
  · exact .inl ⟨balanced.nest first, fault⟩
  · exact .inr ⟨cut.nest first, deep, fun h => scarce (Nat.le_of_lt_succ h)⟩

/-- An error of a sub-expression after the first token of an operand, or after an operator. -/
theorem inner {levels least : Nat} {kind : Token.Kind} (h : c.next.1.kind = kind)
    (more : kind.isFinish = false)
    (inside : (expr levels least).Logged c.next.2 (error d) log) :
    (operand levels).Logged c (error d) log :=
  start inside rfl (·.next) fun ample =>
    Nat.lt_of_lt_of_le (Cursor.bound_next_lt_of_kind h more) ample

end Logged

end Phrase

open Phrase

/-- The log of a phrase that is read is balanced, and that of an error is balanced or cut. -/
theorem Reads.logged {scope : Scope} {phrase : Phrase} {c last : Cursor}
    {answer : Except Diagnostic phrase.Answer} (h : Reads scope phrase c answer last) :
    phrase.Logged c answer (phrase.moves scope c) := by
  induction h with
  | tooDeep =>
    rw [moves_refused]
    exact .inr ⟨.refused _, rfl, by simp [Ample]⟩
  | exprFails reads ih =>
    rw [moves_exprFails reads]
    exact Logged.nest ih _
  | @expr levels least c after last first answer reads _ ih₁ ih₂ =>
    rw [moves_expr reads]
    cases answer with
    | ok => exact Balanced.nest _ (Balanced.append ih₁ ih₂)
    | error =>
      obtain ⟨k, taken, -⟩ := reads.ends
      have lt : after.bound < c.bound := reads.bound_lt
      refine Logged.nest (Logged.within ih₂ ih₁ rfl (·.past taken) fun ample => ?_) _
      exact Nat.le_trans (Nat.le_of_lt lt) ample
  | number kind =>
    rw [moves_atom (by simp [kind]) (by simp [kind]) (by simp [kind]) (by simp [kind])]
    exact Balanced.nil _
  | unbound kind found =>
    rw [moves_atom (by simp [kind]) (by simp [kind]) (by simp [kind]) (by simp [found])]
    exact Logged.fails (.nil _) (by simp)
  | var kind found =>
    rw [moves_atom (by simp [kind]) (by simp [kind]) (by simp [kind]) (by simp [found])]
    exact Balanced.nil _
  | constant kind found =>
    rw [moves_atom (by simp [kind]) (by simp [kind]) (by simp [kind]) (by simp [found])]
    exact Balanced.nil _
  | @function levels c last primitive answer kind found _ ih =>
    rw [moves_function kind found]
    cases answer with
    | ok => exact ih
    | error => exact Logged.start ih rfl (·.next) (Nat.le_trans c.bound_next_le)
  | parenFails kind _ ih =>
    rw [moves_paren kind]
    exact Logged.inner kind rfl ih
  | paren kind _ _ ih =>
    rw [moves_paren kind]
    exact ih
  | parenOpen kind reads _ ih =>
    rw [moves_paren kind]
    obtain ⟨k, taken, -⟩ := reads.ends
    exact Logged.fails ih fun plain => (plain.next.past taken).refuse rfl
  | @minus _ _ _ answer kind _ ih =>
    rw [moves_sign (.inl kind)]
    cases answer with
    | ok => exact ih
    | error => exact Logged.inner kind rfl ih
  | @plus _ _ _ answer kind _ ih =>
    rw [moves_sign (.inr kind)]
    cases answer with
    | ok => exact ih
    | error => exact Logged.inner kind rfl ih
  | closed kind =>
    rw [moves_atom (by simp [kind]) (by simp [kind]) (by simp [kind]) (by simp [kind])]
    exact Logged.fails (.nil _) (by simp)
  | noOperand starts closed =>
    rw [moves_atom]
    · exact Logged.fails (.nil _) fun plain => plain.refuse rfl
    all_goals
      intro kind
      simp [kind, Token.Kind.startsOperand] at starts
  | stop weak =>
    rw [moves_stop weak]
    exact Balanced.nil _
  | stepFails kind strong reads ih =>
    rw [moves_stepFails kind strong reads]
    refine Logged.start ih rfl (·.next) fun ample => ?_
    exact Nat.lt_of_lt_of_le (Cursor.bound_next_lt_of_kind kind rfl) ample
  | @step _ _ c after _ _ _ answer kind strong reads _ ih₁ ih₂ =>
    rw [moves_step kind strong reads]
    cases answer with
    | ok => exact Balanced.append ih₁ ih₂
    | error =>
      obtain ⟨k, taken, -⟩ := reads.ends
      have lt : after.bound < c.next.2.bound := reads.bound_lt
      refine Logged.within ih₂ ih₁ rfl (fun plain => plain.next.past taken) fun ample => ?_
      exact Nat.le_trans (Nat.le_of_lt lt) (Nat.le_trans c.bound_next_le ample)
  | callUnopened kind =>
    rw [moves_noCall fun opening => absurd opening kind]
    exact Logged.fails (.nil _) fun plain => plain.refuse rfl
  | callEmpty _ closing =>
    rw [moves_noCall fun _ => .inl closing]
    exact Balanced.nil _
  | callMissing _ closing =>
    rw [moves_noCall fun _ => .inl closing]
    exact Logged.fails (.nil _) (by simp)
  | callSurplus _ _ none =>
    rw [moves_noCall fun _ => .inr none]
    exact Logged.fails (.nil _) (by simp)
  | @callFails _ _ _ c _ _ opening closing none _ ih =>
    rw [moves_call opening closing none]
    refine Logged.start ih rfl (·.past (.inr rfl : c.Past 1 _)) fun ample => ?_
    have lt : c.next.2.bound < c.bound := Cursor.bound_next_lt_of_kind opening rfl
    exact Nat.lt_of_le_of_lt c.next.2.bound_peek_le (Nat.lt_of_lt_of_le lt ample)
  | call opening closing none _ _ ih =>
    rw [moves_call opening closing none]
    exact ih
  | callTooFew opening closing none _ _ ih =>
    rw [moves_call opening closing none]
    exact Logged.fails ih (by simp)
  | argFails reads ih =>
    rw [moves_argFails reads]
    exact Logged.start ih rfl id id
  | argSurplus reads _ most ih =>
    rw [moves_argLast reads fun _ => most]
    exact Logged.fails ih (by simp)
  | @arg _ _ _ c after _ _ answer reads comma most _ ih₁ ih₂ =>
    rw [moves_arg reads comma most]
    cases answer with
    | ok => exact Balanced.append ih₁ ih₂
    | error =>
      obtain ⟨k, taken, -⟩ := reads.ends
      have lt : after.bound < c.bound := reads.bound_lt
      refine Logged.within ih₂ ih₁ rfl (fun plain => (plain.past taken).next) fun ample => ?_
      exact Nat.lt_of_le_of_lt after.bound_next_le (Nat.lt_trans lt ample)
  | argLast reads close ih =>
    rw [moves_argLast reads fun comma => by simp [close] at comma]
    exact ih
  | argOpen reads comma _ ih =>
    rw [moves_argLast reads fun h => absurd h comma]
    obtain ⟨k, taken, -⟩ := reads.ends
    exact Logged.fails ih fun plain => (plain.past taken).refuse rfl

end Formula
