import Formula.Proofs.Accepted
import Formula.Proofs.Moves
import Formula.Proofs.Parses

/-!
# The limit of levels

A limit that is not reached makes no difference, and one that is reached makes reading fail
where the first level above it would be opened (`Reads.relevel`): reading with fewer levels goes
the same way until the log of the levels runs over. So the limit of a text can be raised, and
what could be read before is read as before (`nesting_limit_transparent`).
-/

namespace Formula

open Except (ok error)

namespace Phrase

/-- The same phrase with another number of levels. -/
abbrev relevel (left : Nat) : Phrase → Phrase
  | expr _ least => expr left least
  | operand _ => operand left
  | steps _ least => steps left least
  | call _ func name => call left func name
  | args _ arity count => args left arity count

/-- With another number of levels the answer is the same. -/
def Rereads (scope : Scope) (left : Nat) (c last : Cursor) :
    (phrase : Phrase) → Except Diagnostic phrase.Answer → Prop
  | expr _ least, answer => Reads scope (.expr left least) c answer last
  | operand _, answer => Reads scope (.operand left) c answer last
  | steps _ least, answer => Reads scope (.steps left least) c answer last
  | call _ func name, answer => Reads scope (.call left func name) c answer last
  | args _ arity count, answer => Reads scope (.args left arity count) c answer last

/-- With another number of levels the answer is the same, or an error where the log of the
levels runs over. -/
def Follows (scope : Scope) (left : Nat) (c last : Cursor) (phrase : Phrase)
    (answer : Except Diagnostic phrase.Answer) : Option Token → Prop
  | none => phrase.Rereads scope left c last answer
  | some first => ∃ last',
    Reads scope (phrase.relevel left) c (error ⟨.nestingTooDeep, first.span⟩) last'

theorem Logged.balanced {phrase : Phrase} {c : Cursor} {answer : Except Diagnostic phrase.Answer}
    {log : List Move} (h : phrase.Logged c answer log) (hu : Unrefused log) :
    Balanced phrase.levels log := by
  cases answer with
  | ok => exact h
  | error =>
    obtain ⟨balanced, -⟩ | ⟨cut, -⟩ := h
    · exact balanced
    · exact absurd hu cut.not_unrefused

namespace Follows

variable {scope : Scope} {left left' : Nat} {c c' last last' : Cursor} {phrase part : Phrase}
  {answer : Except Diagnostic phrase.Answer} {answer' : Except Diagnostic part.Answer}
  {excess excess' : Option Token}

/-- The log of a part runs over, or else what comes after decides. -/
theorem seq (h : part.Follows scope left' c' last' answer' excess)
    (next : part.Rereads scope left' c' last' answer' →
      phrase.Follows scope left c last answer excess')
    (fails : ∀ d stop, Reads scope (part.relevel left') c' (error d) stop →
      Reads scope (phrase.relevel left) c (error d) stop) :
    phrase.Follows scope left c last answer (excess.or excess') := by
  cases excess with
  | none => exact next h
  | some first =>
    obtain ⟨stop, reads⟩ := h
    exact ⟨stop, fails _ stop reads⟩

/-- An answer for a part that makes the answer for a phrase. -/
theorem imp (h : part.Follows scope left' c' last' answer' excess)
    (same : part.Rereads scope left' c' last' answer' → phrase.Rereads scope left c last answer)
    (fails : ∀ d stop, Reads scope (part.relevel left') c' (error d) stop →
      Reads scope (phrase.relevel left) c (error d) stop) :
    phrase.Follows scope left c last answer excess := by
  rw [← Option.or_none (o := excess)]
  exact h.seq same fails

end Follows

end Phrase

open Phrase

/-- With another number of levels a phrase is read as before, or fails where the log of its
levels runs over. -/
theorem Reads.relevel {scope : Scope} {phrase : Phrase} {c last : Cursor}
    {answer : Except Diagnostic phrase.Answer} (h : Reads scope phrase c answer last)
    (hu : Unrefused (phrase.moves scope c)) (left : Nat) :
    phrase.Follows scope left c last answer (overflow left (phrase.moves scope c)) := by
  induction h generalizing left with
  | tooDeep =>
    rw [moves_refused] at hu
    exact absurd hu (Cut.refused _).not_unrefused
  | exprFails reads ih =>
    rw [moves_exprFails reads] at hu ⊢
    rw [unrefused_nest] at hu
    cases left with
    | zero => exact ⟨_, .tooDeep⟩
    | succ left =>
      rw [(reads.logged.balanced hu).overflow_nest]
      exact (ih hu left).imp .exprFails fun _ _ => .exprFails
  | @expr levels least c after last first answer reads reads' ih₁ ih₂ =>
    rw [moves_expr reads] at hu ⊢
    rw [unrefused_nest, unrefused_append] at hu
    obtain ⟨hu₁, hu₂⟩ := hu
    cases left with
    | zero => exact ⟨_, .tooDeep⟩
    | succ left =>
      have balanced := reads.logged.balanced hu₁
      rw [(balanced.append (reads'.logged.balanced hu₂)).overflow_nest, balanced.overflow_append]
      refine (ih₁ hu₁ left).seq (fun h => ?_) fun _ _ => .exprFails
      exact (ih₂ hu₂ left).imp (.expr h) fun _ _ => .expr h
  | number kind =>
    rw [moves_atom (by simp [kind]) (by simp [kind]) (by simp [kind]) (by simp [kind])]
    exact Reads.number kind
  | unbound kind found =>
    rw [moves_atom (by simp [kind]) (by simp [kind]) (by simp [kind]) (by simp [found])]
    exact Reads.unbound kind found
  | var kind found =>
    rw [moves_atom (by simp [kind]) (by simp [kind]) (by simp [kind]) (by simp [found])]
    exact Reads.var kind found
  | constant kind found =>
    rw [moves_atom (by simp [kind]) (by simp [kind]) (by simp [kind]) (by simp [found])]
    exact Reads.constant kind found
  | function kind found _ ih =>
    rw [moves_function kind found] at hu ⊢
    exact (ih hu left).imp (.function kind found) fun _ _ => .function kind found
  | parenFails kind _ ih =>
    rw [moves_paren kind] at hu ⊢
    exact (ih hu left).imp (.parenFails kind) fun _ _ => .parenFails kind
  | paren kind _ close ih =>
    rw [moves_paren kind] at hu ⊢
    exact (ih hu left).imp (.paren kind · close) fun _ _ => .parenFails kind
  | parenOpen kind _ unclosed ih =>
    rw [moves_paren kind] at hu ⊢
    exact (ih hu left).imp (.parenOpen kind · unclosed) fun _ _ => .parenFails kind
  | minus kind _ ih =>
    rw [moves_sign (.inl kind)] at hu ⊢
    exact (ih hu left).imp (.minus kind) fun _ _ => .minus kind
  | plus kind _ ih =>
    rw [moves_sign (.inr kind)] at hu ⊢
    exact (ih hu left).imp (.plus kind) fun _ _ => .plus kind
  | closed kind =>
    rw [moves_atom (by simp [kind]) (by simp [kind]) (by simp [kind]) (by simp [kind])]
    exact Reads.closed kind
  | noOperand starts closed =>
    rw [moves_atom]
    · exact Reads.noOperand starts closed
    all_goals
      intro kind
      simp [kind, Token.Kind.startsOperand] at starts
  | stop weak =>
    rw [moves_stop weak]
    exact Reads.stop weak
  | stepFails kind strong reads ih =>
    rw [moves_stepFails kind strong reads] at hu ⊢
    exact (ih hu left).imp (.stepFails kind strong) fun _ _ => .stepFails kind strong
  | step kind strong reads _ ih₁ ih₂ =>
    rw [moves_step kind strong reads] at hu ⊢
    obtain ⟨hu₁, hu₂⟩ := unrefused_append.mp hu
    rw [(reads.logged.balanced hu₁).overflow_append]
    refine (ih₁ hu₁ left).seq (fun h => ?_) fun _ _ => .stepFails kind strong
    exact (ih₂ hu₂ left).imp (.step kind strong h) fun _ _ => .step kind strong h
  | callUnopened kind =>
    rw [moves_noCall fun opening => absurd opening kind]
    exact Reads.callUnopened kind
  | callEmpty opening closing accepted =>
    rw [moves_noCall fun _ => .inl closing]
    exact Reads.callEmpty opening closing accepted
  | callMissing opening closing accepted =>
    rw [moves_noCall fun _ => .inl closing]
    exact Reads.callMissing opening closing accepted
  | callSurplus opening closing none =>
    rw [moves_noCall fun _ => .inr none]
    exact Reads.callSurplus opening closing none
  | callFails opening closing none _ ih =>
    rw [moves_call opening closing none] at hu ⊢
    exact (ih hu left).imp (.callFails opening closing none) fun _ _ =>
      .callFails opening closing none
  | call opening closing none _ accepted ih =>
    rw [moves_call opening closing none] at hu ⊢
    exact (ih hu left).imp (.call opening closing none · accepted) fun _ _ =>
      .callFails opening closing none
  | callTooFew opening closing none _ few ih =>
    rw [moves_call opening closing none] at hu ⊢
    exact (ih hu left).imp (.callTooFew opening closing none · few) fun _ _ =>
      .callFails opening closing none
  | argFails reads ih =>
    rw [moves_argFails reads] at hu ⊢
    exact (ih hu left).imp .argFails fun _ _ => .argFails
  | argSurplus reads comma most ih =>
    rw [moves_argLast reads fun _ => most] at hu ⊢
    exact (ih hu left).imp (.argSurplus · comma most) fun _ _ => .argFails
  | arg reads comma more _ ih₁ ih₂ =>
    rw [moves_arg reads comma more] at hu ⊢
    obtain ⟨hu₁, hu₂⟩ := unrefused_append.mp hu
    rw [(reads.logged.balanced hu₁).overflow_append]
    refine (ih₁ hu₁ left).seq (fun h => ?_) fun _ _ => .argFails
    exact (ih₂ hu₂ left).imp (.arg h comma more) fun _ _ => .arg h comma more
  | argLast reads close ih =>
    rw [moves_argLast reads fun comma => by simp [close] at comma] at hu ⊢
    exact (ih hu left).imp (.argLast · close) fun _ _ => .argFails
  | argOpen reads comma close ih =>
    rw [moves_argLast reads fun h => absurd h comma] at hu ⊢
    exact (ih hu left).imp (.argOpen · comma close) fun _ _ => .argFails

/-! ## Texts -/

/-- The levels that are opened and closed while a parser reads. -/
def Parser.moves (scope : Scope) (p : Parser) : List Move :=
  if p.cursor.next.1.isFinish then []
  else (Phrase.expr p.levels 0).moves scope p.cursor.peek.2

theorem Parser.moves_of_finish {scope : Scope} {p : Parser}
    (finish : p.cursor.next.1.isFinish = true) : p.moves scope = [] := by
  rw [moves, if_pos finish]

theorem Parser.moves_of_more {scope : Scope} {p : Parser}
    (more : p.cursor.next.1.isFinish = false) :
    p.moves scope = (Phrase.expr p.levels 0).moves scope p.cursor.peek.2 := by
  rw [moves, if_neg (by simp [more])]

/-- A parser fails where its expression does, or else what comes after the expression decides. -/
theorem Phrase.Follows.parses {scope : Scope} {levels limit : Nat} {c last : Cursor}
    {answer result : Except Diagnostic Expr} {excess : Option Token}
    (h : (Phrase.expr levels 0).Follows scope limit c.peek.2 last answer excess)
    (more : c.next.1.isFinish = false)
    (same : Reads scope (.expr limit 0) c.peek.2 answer last → ∃ q, Parses scope limit c result q) :
    ∃ q, Parses scope limit c
      (excess.elim result fun first => error ⟨.nestingTooDeep, first.span⟩) q := by
  cases excess with
  | none => exact same h
  | some first =>
    obtain ⟨_, fails⟩ := h
    exact ⟨_, .fails more fails⟩

/-- With another limit a parser gives the same, or fails where the log of the levels runs
over. -/
theorem Parses.relevel {scope : Scope} {p q : Parser} {answer : Except Diagnostic Expr}
    (h : Parses scope p.levels p.cursor answer q) (hu : Unrefused (p.moves scope)) (limit : Nat) :
    ∃ q', Parses scope limit p.cursor ((overflow limit (p.moves scope)).elim answer fun first =>
      error ⟨.nestingTooDeep, first.span⟩) q' := by
  cases h with
  | empty finish =>
    rw [Parser.moves_of_finish finish]
    exact ⟨_, .empty finish⟩
  | fails more reads =>
    rw [Parser.moves_of_more more] at hu ⊢
    exact (reads.relevel hu limit).parses more fun again => ⟨_, .fails more again⟩
  | whole more reads finish =>
    rw [Parser.moves_of_more more] at hu ⊢
    exact (reads.relevel hu limit).parses more fun again => ⟨_, .whole more again finish⟩
  | more more reads follows =>
    rw [Parser.moves_of_more more] at hu ⊢
    exact (reads.relevel hu limit).parses more fun again => ⟨_, .more more again follows⟩

/-- What a text stands for with another limit. -/
theorem parse_relevel {scope : Scope} {source : String} {unlimited : Nat}
    (hu : Unrefused ((Parser.ofString source unlimited).moves scope)) (limit : Nat) :
    parse scope limit source =
      (overflow limit ((Parser.ofString source unlimited).moves scope)).elim
        (parse scope unlimited source) fun first => error ⟨.nestingTooDeep, first.span⟩ := by
  obtain ⟨answer, q, parses⟩ := exists_parses scope unlimited (.ofString source)
  have same : parse scope unlimited source = answer :=
    congrArg Prod.fst (Parses.parse_eq (p := .ofString source unlimited) parses)
  obtain ⟨q', again⟩ := Parses.relevel (p := .ofString source unlimited) parses hu limit
  rw [same]
  exact congrArg Prod.fst (Parses.parse_eq (p := .ofString source limit) again)

/-- No level is refused if there are more of them than characters. -/
theorem unrefused_of_ample {scope : Scope} {source : String} {levels : Nat}
    (ample : source.length < levels) : Unrefused ((Parser.ofString source levels).moves scope) := by
  cases finish : (Cursor.ofString source).next.1.isFinish with
  | true =>
    rw [Parser.moves_of_finish finish]
    exact List.forall_mem_nil _
  | false =>
  rw [Parser.moves_of_more finish]
  obtain ⟨answer, last, reads⟩ :=
    exists_reads scope (.expr levels 0) (Cursor.ofString source).peek.2
  have bound : (Cursor.ofString source).peek.2.bound < levels :=
    Nat.lt_of_le_of_lt (Cursor.bound_peek_le _) ample
  have logged := reads.logged
  cases answer with
  | ok => exact Balanced.unrefused logged
  | error =>
    obtain ⟨balanced, -⟩ | ⟨-, -, scarce⟩ := logged
    · exact balanced.unrefused
    · exact absurd bound scarce

/-- What is read with a limit is read with a higher one. -/
theorem parse_mono {scope : Scope} {source : String} {limit higher : Nat} {e : Expr}
    (h : parse scope limit source = ok e) (le : limit ≤ higher) :
    parse scope higher source = ok e := by
  have hu : Unrefused ((Parser.ofString source source.length.succ).moves scope) :=
    unrefused_of_ample (Nat.lt_succ_self source.length)
  rw [parse_relevel hu] at h ⊢
  cases excess : overflow limit ((Parser.ofString source source.length.succ).moves scope) with
  | some => rw [excess] at h; cases h
  | none =>
    have low := low_of_overflow excess
    have higher_low : Low higher ((Parser.ofString source source.length.succ).moves scope) :=
      fun start hs => Int.le_trans (low start hs) (Int.ofNat_le.mpr le)
    rw [excess] at h
    rw [(overflow_eq_none_iff hu).mpr higher_low]
    exact h

/-- The limit of levels makes no difference until it is exceeded, and then reading fails at the
first token of the sub-expression that would open one level too many. Raising limits changes
no program. -/
theorem nesting_limit_transparent :
    (∀ (scope : Scope) (source : String) (unlimited limit : Nat),
      Unrefused ((Parser.ofString source unlimited).moves scope) →
      (Low limit ((Parser.ofString source unlimited).moves scope) →
        parse scope limit source = parse scope unlimited source) ∧
      (¬ Low limit ((Parser.ofString source unlimited).moves scope) →
        ∃ start first rest,
          (Parser.ofString source unlimited).moves scope = start ++ .opened first :: rest ∧
          height start = limit ∧ Low limit start ∧
          parse scope limit source = error ⟨.nestingTooDeep, first.span⟩)) ∧
    (∀ (scope : Scope) (source : String), ∃ enough, ∀ unlimited ≥ enough,
      Unrefused ((Parser.ofString source unlimited).moves scope)) ∧
    ∀ (options raised : Options) (scope : Scope) (source : String) (p : Program),
      options.maxLength ≤ raised.maxLength → options.maxLevels ≤ raised.maxLevels →
      options.fold = raised.fold →
      compile options scope source = ok p → compile raised scope source = ok p := by
  refine ⟨fun scope source unlimited limit hu => ⟨fun low => ?_, fun high => ?_⟩, ?_, ?_⟩
  · rw [parse_relevel hu, (overflow_eq_none_iff hu).mpr low]
    rfl
  · cases excess : overflow limit ((Parser.ofString source unlimited).moves scope) with
    | none => exact absurd (low_of_overflow excess) high
    | some first =>
      obtain ⟨start, rest, log, top, low⟩ := exists_of_overflow hu excess
      refine ⟨start, first, rest, log, top, low, ?_⟩
      rw [parse_relevel hu, excess]
      rfl
  · exact fun scope source => ⟨source.length + 1, fun unlimited => unrefused_of_ample⟩
  · intro options raised scope source p length levels fold h
    obtain ⟨short, e, parsed, laid⟩ := compile_eq_ok_iff.mp h
    rw [Options.prepare, fold] at laid
    exact compile_eq_ok_iff.mpr
      ⟨Nat.le_trans short length, e, parse_mono parsed levels, laid⟩

/-- A number in two pairs of parentheses needs three levels, and with two of them it is the number
that is too deep. -/
theorem nesting_limit_transparent_parens :
    parse .empty 3 "((1))" = parse .empty 9 "((1))" ∧
      ∃ start first rest,
        (Parser.ofString "((1))" 9).moves .empty = start ++ .opened first :: rest ∧
        height start = 2 ∧ first.span = ⟨2, 3⟩ ∧
        parse .empty 2 "((1))" = error ⟨.nestingTooDeep, ⟨2, 3⟩⟩ := by
  have hu : Unrefused ((Parser.ofString "((1))" 9).moves .empty) := by decide +kernel
  have low : Low 3 ((Parser.ofString "((1))" 9).moves .empty) :=
    low_of_overflow (show overflow 3 _ = none by decide +kernel)
  have high : ¬ Low 2 ((Parser.ofString "((1))" 9).moves .empty) := fun low => by
    have : overflow 2 _ = none := (overflow_eq_none_iff hu).mpr low
    exact absurd this (by decide +kernel)
  obtain ⟨same, -⟩ := nesting_limit_transparent.1 .empty "((1))" 9 3 hu
  obtain ⟨-, fails⟩ := nesting_limit_transparent.1 .empty "((1))" 9 2 hu
  obtain ⟨start, first, rest, log, top, -, failed⟩ := fails high
  have reported : (Parser.ofString "((1))" 2).error? .empty =
      some ⟨.nestingTooDeep, ⟨2, 3⟩⟩ := by decide +kernel
  obtain ⟨q, reported⟩ := Parser.error?_eq_some_iff.mp reported
  have span : first.span = ⟨2, 3⟩ := by
    have both := failed.symm.trans (congrArg Prod.fst reported)
    simpa using both
  exact ⟨same low, start, first, rest, log, top, span, by rw [failed, span]⟩

end Formula
