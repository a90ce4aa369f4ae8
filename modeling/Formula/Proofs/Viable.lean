import Formula.Proofs.Grammar.Derivable
import Formula.Proofs.Replay

/-!
# Errors come at the first chance

What stands before the token of an error can be completed to a formula (`Reads.viable`): the
error is at the first token after which nothing can be mended. There are two faults that are
found later than that, or depend on the limit (`Diagnostic.Late`).
-/

namespace Formula

open Except (ok error)

/-- The error depends on the limit of levels, or its token comes after a comma that is already
one too many. -/
def Diagnostic.Late (d : Diagnostic) (before : List Token) : Prop :=
  d.fault = .nestingTooDeep ∨
    (d.fault = .argumentCount ∧ ∃ comma ∈ before.getLast?, comma.kind = .comma)

theorem Diagnostic.Late.append {d : Diagnostic} {before : List Token} (h : d.Late before)
    (ts : List Token) : d.Late (ts ++ before) := by
  obtain deep | ⟨count, comma, last, kind⟩ := h
  · exact .inl deep
  · refine .inr ⟨count, comma, ?_, kind⟩
    rw [List.getLast?_append, Option.mem_def.mp last]
    rfl

/-- Arguments up to a number are not too many. -/
def Arity.Fits (arity : Arity) (count : Nat) : Prop :=
  ∀ most, arity.most? = some most → count ≤ most

theorem Arity.fits_zero {arity : Arity} : arity.Fits 0 :=
  fun most _ => Nat.zero_le most

/-- A comma that is followed leaves room for one more argument. -/
theorem Arity.Fits.succ {arity : Arity} {count : Nat} (h : arity.Fits count)
    (more : arity.most? ≠ some count) : arity.Fits (count + 1) := by
  intro most hm
  refine Nat.lt_of_le_of_ne (h most hm) ?_
  rintro rfl
  exact more hm

/-- What an operator is taken for binds as tightly as the operator had to. -/
theorem Operator.le_min {op : Operator} {least : Nat} (hl : least ≤ 6)
    (strong : least ≤ op.leftPower) : least ≤ min op.leftPower op.rightPower := by
  cases op <;> simp_all [leftPower, rightPower]

namespace Phrase

/-- What was read of a phrase can be completed. Of steps it is said for each left operand that
they could go on from, and of arguments there are some after which no more need to be read. -/
def Open (scope : Scope) : Phrase → Cursor → List Token → Prop
  | expr _ least, _, p => least ≤ 6 → Completable scope (.ofPower least) p
  | operand _, _, p => Completable scope .signed p
  | steps _ least, c, p => least ≤ 6 → ∀ power us, least ≤ power →
      Derivable scope (.ofPower power) us → Below (power + 1) c.ahead →
      Completable scope (.ofPower least) (us ++ p)
  | call _ func _, _, p => ∀ (token : Token) (primitive : Primitive), token.kind = .name →
      scope.resolve token.text = some (.function primitive) → func = ⟨token.text, primitive⟩ →
      Completable scope .atom (token :: p)
  | args _ arity count, _, p => arity.Fits count → ∃ more k, (∀ token ∈ more, token.Spelled) ∧
      Arguments scope (k + 1) (p ++ more) ∧ arity.Fits (count + k)

/-- Arguments that were read are told from the closing parenthesis after them, and the commas
between them were not too many. -/
def Listed (scope : Scope) : (phrase : Phrase) → Cursor → phrase.Answer → Cursor → Prop
  | args _ arity count, c, (list, close), last => ∃ ts closing k,
      c.ahead = ts ++ closing :: last.ahead ∧ close = closing.span ∧ list.length = k + 1 ∧
      Arguments scope (k + 1) ts ∧ (arity.Fits count → arity.Fits (count + k))
  | _, _, _, _ => True

/-- What is said of an answer: an error comes after tokens that can be completed, unless it is
late. -/
def Viable (scope : Scope) (size : Nat) (phrase : Phrase) (c : Cursor) :
    Except Diagnostic phrase.Answer → Cursor → Prop
  | error d, _ => ∃ p rest, c.ahead = p ++ rest ∧ d.span = spanAt size rest ∧
      (¬ d.Late p → phrase.Open scope c p)
  | ok value, last => phrase.Listed scope c value last

/-- An error of a part is one of the phrase, after the tokens before the part. -/
theorem Viable.after {scope : Scope} {size : Nat} {phrase part : Phrase} {c middle last : Cursor}
    {d : Diagnostic} (h : part.Viable scope size middle (error d) last) (ts : List Token)
    (ahead : c.ahead = ts ++ middle.ahead)
    (hp : ∀ p, part.Open scope middle p → phrase.Open scope c (ts ++ p)) :
    phrase.Viable scope size c (error d) last := by
  obtain ⟨p, rest, e, span, viable⟩ := h
  refine ⟨ts ++ p, rest, by rw [ahead, e, List.append_assoc], span, fun late => hp p (viable ?_)⟩
  exact fun h => late (h.append ts)

/-- An error at the token after some that were read. -/
theorem Viable.at {scope : Scope} {size : Nat} {phrase : Phrase} {c middle last : Cursor}
    {d : Diagnostic} (ends : middle.EndsAt size) (ts : List Token)
    (ahead : c.ahead = ts ++ middle.ahead) (span : d.span = middle.next.1.span)
    (hp : ¬ d.Late ts → phrase.Open scope c ts) : phrase.Viable scope size c (error d) last :=
  ⟨ts, middle.ahead, ahead, span.trans ends.span, hp⟩

end Phrase

open Phrase

/-- An error comes after tokens that can be completed, unless it is late. -/
theorem Reads.viable {scope : Scope} {size : Nat} {phrase : Phrase} {c last : Cursor}
    {answer : Except Diagnostic phrase.Answer} (h : Reads scope phrase c answer last)
    (ends : c.EndsAt size) : phrase.Viable scope size c answer last := by
  induction h with
  | number | var | constant | paren | stop | callEmpty | call => trivial
  | tooDeep => exact .at ends [] rfl rfl fun late => absurd (.inl rfl) late
  | exprFails _ ih =>
    exact (ih ends).after [] rfl fun p viable least => Completable.loosen (a := 6) viable least
  | @expr levels least c after last first answer reads _ _ ih =>
    cases answer with
    | ok => trivial
    | error =>
      obtain ⟨power, us, le, ahead, derived, below⟩ := reads.sound
      obtain ⟨k, taken, -⟩ := reads.ends
      refine (ih (ends.past taken)).after _ ahead fun p viable hl => ?_
      exact viable hl power us (by omega) ⟨_, _, derived⟩ below
  | unbound kind =>
    exact .at ends [] rfl rfl fun _ => Completable.nil scope
  | @function levels c last primitive answer kind found _ ih =>
    cases answer with
    | ok => trivial
    | error =>
      refine (ih ends.next).after [c.next.1] (Cursor.ahead_of_kind kind rfl) ?_
      exact fun p viable => (viable _ _ kind found rfl).signed
  | @parenFails levels c last d kind _ ih =>
    refine (ih ends.next).after [c.next.1] (Cursor.ahead_of_kind kind rfl) ?_
    exact fun p viable => ((viable (by omega)).paren kind).signed
  | @parenOpen levels c closing inner kind reads _ _ =>
    obtain ⟨_, us, -, ahead, derived, -⟩ := reads.sound (by omega)
    obtain ⟨k, taken, -⟩ := reads.ends
    have inside := Cursor.ahead_cons kind rfl ahead
    refine .at (ends.next.past taken) _ inside (Token.span_refuse _ _) fun _ => ?_
    exact ((Completable.of_derivable ⟨_, _, derived⟩).paren kind).signed
  | @minus levels c last answer kind _ ih =>
    cases answer with
    | ok => trivial
    | error =>
      refine (ih ends.next).after [c.next.1] (Cursor.ahead_of_kind kind rfl) ?_
      exact fun p viable => (viable (by decide)).minus kind
  | @plus levels c last answer kind _ ih =>
    cases answer with
    | ok => trivial
    | error =>
      refine (ih ends.next).after [c.next.1] (Cursor.ahead_of_kind kind rfl) ?_
      exact fun p viable => (viable (by decide)).plus kind
  | closed =>
    exact .at ends [] rfl rfl fun _ => Completable.nil scope
  | noOperand =>
    exact .at ends [] rfl (Token.span_refuse _ _) fun _ => Completable.nil scope
  | @stepFails levels least c last op d kind strong _ ih =>
    refine (ih ends.next).after [c.next.1] (Cursor.ahead_of_kind kind rfl) ?_
    intro p viable hl power us hp derivable below
    have le : op.leftPower < power + 1 := below_ahead_iff.mp below op kind
    have right := viable (by cases op <;> decide)
    have whole := Completable.binary (derivable.loosen (Nat.le_of_lt_succ le)) kind right
    exact whole.loosen (Operator.le_min hl strong)
  | @step levels least c after last op operand answer kind strong reads _ _ ih =>
    cases answer with
    | ok => trivial
    | error =>
      obtain ⟨_, vs, -, ahead, derived, below⟩ := reads.sound (by cases op <;> decide)
      obtain ⟨k, taken, -⟩ := reads.ends
      have inside := Cursor.ahead_cons kind rfl ahead
      refine (ih (ends.next.past taken)).after _ inside ?_
      intro p viable hl power us hp derivable below'
      have le : op.leftPower < power + 1 := below_ahead_iff.mp below' op kind
      have left := (derivable.loosen (Nat.le_of_lt_succ le)).binary kind ⟨_, _, derived⟩
      have whole := viable hl _ _ (Operator.le_min hl strong) left
        (below.mono (by cases op <;> decide))
      rwa [List.append_assoc] at whole
  | callUnopened =>
    refine .at ends [] rfl (Token.span_refuse _ _) fun _ token primitive kind found _ => ?_
    have opened := completable_call kind found (show Token.opening.kind = .openParen from rfl)
    exact opened.of_append [token] (List.forall_mem_singleton.mpr Token.spelled_opening)
  | @callMissing levels func name c opening =>
    refine .at ends.next [c.next.1] (Cursor.ahead_of_kind opening rfl) rfl ?_
    exact fun _ token primitive kind found _ => completable_call kind found opening
  | @callSurplus levels func name c opening =>
    refine .at ends.next [c.next.1] (Cursor.ahead_of_kind opening rfl) rfl ?_
    exact fun _ token primitive kind found _ => completable_call kind found opening
  | @callFails levels func name c last d opening closing none _ ih =>
    have inside : c.ahead = [c.next.1] ++ c.next.2.peek.2.ahead := by
      rw [Cursor.ahead_peek, Cursor.ahead_of_kind opening rfl]; rfl
    refine (ih (ends.past (.inr rfl : c.Past 1 _))).after _ inside ?_
    rintro p viable token primitive kind found rfl
    obtain ⟨more, k, spelled, arguments, fits⟩ := viable (Arity.fits_zero.succ none)
    rw [Nat.add_comm] at arguments
    exact (arguments.completable kind found opening fits).of_append _ spelled
  | @callTooFew levels func name close c last list opening closing none _ accepted ih =>
    obtain ⟨ts, closing, k, ahead, span, -, arguments, fits⟩ :=
      ih (ends.past (.inr rfl : c.Past 1 _))
    refine ⟨c.next.1 :: ts, closing :: last.ahead, ?_, span, fun _ => ?_⟩
    · rw [Cursor.ahead_of_kind opening rfl, ← Cursor.ahead_peek, ahead]; rfl
    rintro token primitive kind found rfl
    rw [Nat.add_comm] at arguments
    exact arguments.completable kind found opening (fits (Arity.fits_zero.succ none))
  | argFails _ ih =>
    refine (ih ends).after [] rfl fun p viable fits => ?_
    obtain ⟨more, spelled, derivable⟩ := viable (by omega)
    exact ⟨more, 0, spelled, .one derivable, fits⟩
  | @argSurplus levels arity count c after arg reads comma most _ =>
    obtain ⟨_, us, -, ahead, -, -⟩ := reads.sound (by omega)
    obtain ⟨k, taken, -⟩ := reads.ends
    have inside := Cursor.ahead_concat ahead comma rfl
    refine .at (ends.past taken).next _ inside rfl fun late => absurd (.inr ⟨rfl, ?_⟩) late
    exact ⟨after.next.1, by simp, comma⟩
  | @arg levels arity count c after last arg answer reads comma most _ _ ih =>
    obtain ⟨_, us, -, ahead, derived, -⟩ := reads.sound (by omega)
    obtain ⟨k, taken, -⟩ := reads.ends
    have inside := Cursor.ahead_concat ahead comma rfl
    have ih := ih (ends.past taken).next
    cases answer with
    | error =>
      refine ih.after _ inside fun p viable fits => ?_
      obtain ⟨more, k, spelled, arguments, fits⟩ := viable (fits.succ most)
      refine ⟨more, k + 1, spelled, ?_, by rwa [Nat.add_right_comm] at fits⟩
      simpa using Arguments.cons ⟨_, _, derived⟩ comma arguments
    | ok rest =>
      obtain ⟨list, close⟩ := rest
      obtain ⟨ts, closing, k, ahead', span, length, arguments, fits⟩ := ih
      refine ⟨us ++ after.next.1 :: ts, closing, k + 1, ?_, span, congrArg (· + 1) length,
        .cons ⟨_, _, derived⟩ comma arguments, fun h => ?_⟩
      · rw [inside, ahead']; simp
      · have := fits (h.succ most)
        rwa [Nat.add_right_comm] at this
  | @argLast levels arity count c after arg reads close _ =>
    obtain ⟨_, us, -, ahead, derived, -⟩ := reads.sound (by omega)
    refine ⟨us, after.next.1, 0, ?_, rfl, rfl, .one ⟨_, _, derived⟩, id⟩
    rw [ahead, Cursor.ahead_of_kind close rfl]
  | @argOpen levels arity count c after arg reads comma close _ =>
    obtain ⟨_, us, -, ahead, derived, -⟩ := reads.sound (by omega)
    obtain ⟨k, taken, -⟩ := reads.ends
    refine .at (ends.past taken) _ ahead (Token.span_refuse _ _) fun _ fits => ?_
    refine ⟨[], 0, List.forall_mem_nil _, ?_, fits⟩
    rw [List.append_nil]
    exact .one ⟨_, _, derived⟩

end Formula
