import Formula.Proofs.Context
import Formula.Proofs.Elsewhere
import Formula.Proofs.Stretch

/-!
# Counting arguments

A call is read if the function accepts as many arguments as there are. If there are too few, the
closing parenthesis is wrong, and if there are too many, the first token of the first argument
that is too many, whatever stands there and after it (`CallAnswer`, `call_answered`). The count is
checked in three places: before the first argument, at every comma and at the closing parenthesis.
Each of them sees only a part of the arguments, and together they are the arity of the function.

What an argument is, is told by its text, which stands for it where nothing is around it
(`Stands`).
-/

namespace Formula

open Except (ok error)
open Text (slice?)

namespace Arity

/-- The smallest number of arguments that is accepted. -/
def least : Arity → Nat
  | exactly n => n
  | atLeast n => n

variable {arity : Arity} {count most : Nat}

/-- What is accepted is not too few and not too many. -/
theorem accepts_iff : arity.accepts count = true ↔
    arity.least ≤ count ∧ ∀ most, arity.most? = some most → count ≤ most := by
  cases arity with
  | exactly n => simp [accepts, least, most?]; omega
  | atLeast n => simp [accepts, least, most?]

theorem least_le (h : arity.most? = some most) : arity.least ≤ most := by
  cases arity with
  | exactly n => exact Nat.le_of_eq (Option.some.inj h)
  | atLeast n => cases h

end Arity

/-- No expression starts with a closing parenthesis. -/
theorem Reads.not_closed {scope : Scope} {levels least : Nat} {c last : Cursor} {e : Expr}
    (h : Reads scope (.expr levels least) c (ok e) last) : c.next.1.kind ≠ .closeParen := by
  intro closed
  cases levels with
  | zero => cases h.outcome_eq.symm.trans (Reads.tooDeep).outcome_eq
  | succ levels => cases h.outcome_eq.symm.trans (Reads.exprFails (.closed closed)).outcome_eq

/-! ## Arguments -/

/-- The text from the first to the last of some tokens stands for an expression on its own, which
is the given one where the tokens are. -/
def Stands (scope : Scope) (levels : Nat) (source : String) (ts : List Token) (e : Expr) : Prop :=
  ∃ (a : Span) (text : List Char) (alone : Expr),
    startOf ts = some a.start ∧ stopOf ts = some a.stop ∧ slice? source.toList a = some text ∧
      parse scope levels (.ofList text) = ok alone ∧ e = alone.mapSpan (Span.shift a.start)

/-- Tokens are arguments with commas between them. -/
inductive ArgList (scope : Scope) (levels : Nat) (source : String) :
    List Expr → List Token → Prop where
  | one {ts : List Token} {arg : Expr} :
      Stands scope levels source ts arg → ArgList scope levels source [arg] ts
  | more {ts us : List Token} {arg : Expr} {args : List Expr} {comma : Token} :
      Stands scope levels source ts arg → comma.kind = .comma →
      ArgList scope levels source args us →
      ArgList scope levels source (arg :: args) (ts ++ comma :: us)

/-- Tokens are the arguments between the parentheses of a call, of which there may be none. -/
def Enclosed (scope : Scope) (levels : Nat) (source : String) (args : List Expr)
    (ts : List Token) : Prop :=
  ArgList scope levels source args ts ∨ args = [] ∧ ts = []

section

variable {scope : Scope} {levels : Nat} {source : String} {c : Cursor} {ts rest : List Token}
  {args : List Expr} {e : Expr}

theorem stops_of_kindAt (part : ∀ op, kindAt rest ≠ .operator op) (ahead : List Token) :
    Stops ahead rest := by
  cases rest with
  | nil => exact stops_nil ahead
  | cons token rest => exact stops_of_kind rfl part ahead rest

/-- What stands for an expression on its own is read where something comes after it. -/
theorem Stands.reads (h : Stands scope levels source ts e) (hc : c.StandsIn source)
    (ahead : c.ahead = ts ++ rest) (part : ∀ op, kindAt rest ≠ .operator op) :
    ∃ last, Reads scope (.expr levels 0) c (ok e) last ∧ last.ahead = rest := by
  obtain ⟨a, text, alone, start, stop, found, parsed, rfl⟩ := h
  obtain ⟨before, split⟩ := hc.suffix
  rw [ahead] at split
  obtain ⟨text', found', same⟩ := exists_slice split.symm start stop
  obtain rfl := Option.some.inj (found.symm.trans found')
  obtain ⟨-, last, reads, ended⟩ := Parser.parse_eq_ok_iff.mp parsed
  have taken : (Cursor.ofString (.ofList text)).peek.2.ahead =
      tokens (.ofList text) ++ last.ahead := by
    rw [Cursor.ahead_peek, ended, List.append_nil]
    rfl
  have like := same ▸ (likewise_shift a.start (tokens (.ofList text))).2
  obtain ⟨e', last', reads', ended', alike⟩ := reads.again (Span.spread_shift _) (fun _ _ => rfl)
    taken like ahead (stops_of_kindAt part _)
  rw [Expr.Alike, Expr.mapSpan_id] at alike
  exact ⟨last', alike ▸ reads', ended'⟩

/-- Arguments are read up to the last of them, whatever comes after it, if they are not too
many. -/
theorem ArgList.reads (h : ArgList scope levels source args ts) {arity : Arity} {count : Nat}
    (hc : c.StandsIn source) (ahead : c.ahead = ts ++ rest)
    (part : ∀ op, kindAt rest ≠ .operator op)
    (fits : ∀ most, arity.most? = some most → count + args.length ≤ most + 1) :
    ∃ init arg middle last, args = init ++ [arg] ∧ c.next.1.kind ≠ .closeParen ∧
      Reads scope (.expr levels 0) middle (ok arg) last ∧ last.StandsIn source ∧
      last.ahead = rest ∧
      ∀ answer stop, Reads scope (.args levels arity (count + init.length)) middle answer stop →
        Reads scope (.args levels arity count) c
          (answer.map fun more => (init ++ more.1, more.2)) stop := by
  induction h generalizing count c with
  | @one _ arg stands =>
    obtain ⟨last, reads, ended⟩ := stands.reads hc ahead part
    refine ⟨[], arg, c, last, rfl, reads.not_closed, reads, reads.standsIn hc, ended, ?_⟩
    intro answer stop h
    cases answer <;> exact h
  | @more _ _ arg args _ stands comma listed ih =>
    rw [List.append_assoc] at ahead
    obtain ⟨after, reads, ended⟩ := stands.reads hc ahead fun op => by simp [kindAt, comma]
    obtain ⟨rfl, next⟩ := Cursor.next_of_ahead ended
    have fits' : ∀ most, arity.most? = some most → count + 1 + args.length ≤ most + 1 := by
      intro most hm
      have := fits most hm
      rw [List.length_cons] at this
      omega
    obtain ⟨init, last, middle, closing, rfl, -, reads', inside, ended', lift⟩ :=
      ih (reads.standsIn hc).next next fits'
    refine ⟨arg :: init, last, middle, closing, rfl, reads.not_closed, reads', inside, ended', ?_⟩
    intro answer stop h
    rw [List.length_cons, ← Nat.add_assoc, Nat.add_right_comm] at h
    have few : arity.most? ≠ some count := by
      intro hm
      have := fits count hm
      simp at this
    have more := Reads.arg reads comma few (lift answer stop h)
    cases answer <;> exact more

/-- The first of some arguments end at a comma. -/
theorem ArgList.split (h : ArgList scope levels source args ts) {n : Nat}
    (more : n + 1 < args.length) :
    ∃ us comma vs, ts = us ++ comma :: vs ∧ comma.kind = .comma ∧
      ArgList scope levels source (args.take (n + 1)) us := by
  induction h generalizing n with
  | one => exact absurd more (by simp)
  | @more us vs _ args comma stands kind _ ih =>
    cases n with
    | zero => exact ⟨us, comma, vs, rfl, kind, .one stands⟩
    | succ n =>
      obtain ⟨us', comma', vs', rfl, kind', listed⟩ := ih (Nat.lt_of_succ_lt_succ more)
      refine ⟨us ++ comma :: us', comma', vs', by simp, kind', ?_⟩
      exact .more stands kind listed

/-- Arguments and the closing parenthesis after them. -/
theorem ArgList.close (h : ArgList scope levels source args ts) {arity : Arity} {closing : Token}
    (hc : c.StandsIn source) (ahead : c.ahead = ts ++ closing :: rest)
    (kind : closing.kind = .closeParen)
    (fits : ∀ most, arity.most? = some most → args.length ≤ most) :
    c.next.1.kind ≠ .closeParen ∧ arity.most? ≠ some 0 ∧
      ∃ last, Reads scope (.args levels arity 1) c (ok (args, closing.span)) last ∧
        last.ahead = rest := by
  have fits' : ∀ most, arity.most? = some most → 1 + args.length ≤ most + 1 := by
    intro most hm
    rw [Nat.add_comm]
    exact Nat.succ_le_succ (fits most hm)
  obtain ⟨init, arg, middle, last, rfl, first, reads, -, ended, lift⟩ :=
    h.reads hc ahead (fun op => by simp [kindAt, kind]) fits'
  obtain ⟨rfl, behind⟩ := Cursor.next_of_ahead ended
  refine ⟨first, fun none => ?_, _, lift _ _ (.argLast reads kind), behind⟩
  have := fits 0 none
  simp at this

/-- As many arguments as are accepted at most, and a comma after them. -/
theorem ArgList.surplus (h : ArgList scope levels source args ts) {arity : Arity} {comma : Token}
    (hc : c.StandsIn source) (ahead : c.ahead = ts ++ comma :: rest)
    (kind : comma.kind = .comma) (most : arity.most? = some args.length) :
    c.next.1.kind ≠ .closeParen ∧ arity.most? ≠ some 0 ∧
      ∃ last, Reads scope (.args levels arity 1) c
        (error ⟨.argumentCount, spanAt source.utf8ByteSize rest⟩) last := by
  have fits : ∀ more, arity.most? = some more → 1 + args.length ≤ more + 1 := by
    intro more hm
    have full : args.length = more := Option.some.inj (most.symm.trans hm)
    omega
  obtain ⟨init, arg, middle, last, rfl, first, reads, inside, ended, lift⟩ :=
    h.reads hc ahead (fun op => by simp [kindAt, kind]) fits
  obtain ⟨rfl, behind⟩ := Cursor.next_of_ahead ended
  rw [List.length_append, List.length_singleton, Nat.add_comm] at most
  have failed := lift _ _ (.argSurplus reads kind most)
  rw [(inside.past (.next last)).span, behind] at failed
  refine ⟨first, fun none => ?_, _, failed⟩
  have := Option.some.inj (none.symm.trans most)
  omega

end

/-! ## Calls -/

/-- What becomes of a call, by its tokens after the opening parenthesis: what is left of them where
it ends, and the answer. -/
inductive CallAnswer (scope : Scope) (levels : Nat) (source : String) (name : Token)
    (primitive : Primitive) : List Token → List Token → Except Diagnostic Expr → Prop where
  /-- As many arguments as are accepted. -/
  | accepted {args : List Expr} {ts rest : List Token} {closing : Token} :
      Enclosed scope levels source args ts → closing.kind = .closeParen →
      primitive.arity.accepts args.length = true →
      CallAnswer scope levels source name primitive (ts ++ closing :: rest) rest
        (ok (.call (name.span.through closing.span) ⟨name.text, primitive⟩ args))
  /-- Too few, which is told at the closing parenthesis. -/
  | tooFew {args : List Expr} {ts rest : List Token} {closing : Token} :
      Enclosed scope levels source args ts → closing.kind = .closeParen →
      args.length < primitive.arity.least →
      CallAnswer scope levels source name primitive (ts ++ closing :: rest) (closing :: rest)
        (error ⟨.argumentCount, closing.span⟩)
  /-- As many as are accepted at most, and another, which is told at its first token. -/
  | tooMany {args : List Expr} {ts rest : List Token} {comma : Token} :
      ArgList scope levels source args ts → comma.kind = .comma →
      primitive.arity.most? = some args.length →
      CallAnswer scope levels source name primitive (ts ++ comma :: rest) rest
        (error ⟨.argumentCount, spanAt source.utf8ByteSize rest⟩)
  /-- One where none is accepted. -/
  | notNone {rest : List Token} :
      primitive.arity.most? = some 0 → kindAt rest ≠ .closeParen →
      CallAnswer scope levels source name primitive rest rest
        (error ⟨.argumentCount, spanAt source.utf8ByteSize rest⟩)

namespace CallAnswer

variable {scope : Scope} {levels : Nat} {source : String} {name opening : Token}
  {primitive : Primitive} {inside rest : List Token} {answer : Except Diagnostic Expr}
  {c : Cursor}

/-- The parentheses of a call are read with the answer that belongs to them. -/
theorem reads (h : CallAnswer scope levels source name primitive inside rest answer)
    (hc : c.StandsIn source) (opens : c.next.1.kind = .openParen)
    (ahead : c.next.2.ahead = inside) :
    ∃ last, Reads scope (.call levels ⟨name.text, primitive⟩ name.span) c answer last ∧
      ∀ e, answer = ok e → last.ahead = rest := by
  have inner : c.next.2.peek.2.StandsIn source := hc.next.peek
  have same : c.next.2.peek.2.ahead = inside := (Cursor.ahead_peek _).trans ahead
  cases h with
  | @accepted args _ _ closing given close accepted =>
    rcases given with given | ⟨rfl, rfl⟩
    · obtain ⟨first, most, last, reads, ended⟩ :=
        given.close inner same close fun _ => Arity.le_of_accepts accepted
      rw [Cursor.next_of_peek] at first
      exact ⟨last, .call opens first most reads accepted, fun _ _ => ended⟩
    · obtain ⟨rfl, ended⟩ := Cursor.next_of_ahead ahead
      exact ⟨_, .callEmpty opens close accepted, fun _ _ => ended⟩
  | @tooFew args _ _ closing given close few =>
    have refused : primitive.arity.accepts args.length = false := by
      rw [← Bool.not_eq_true, Arity.accepts_iff]
      exact fun accepted => Nat.not_le_of_lt few accepted.1
    rcases given with given | ⟨rfl, rfl⟩
    · obtain ⟨first, most, last, reads, -⟩ := given.close inner same close fun most hm =>
        Nat.le_of_lt (Nat.lt_of_lt_of_le few (Arity.least_le hm))
      rw [Cursor.next_of_peek] at first
      exact ⟨last, .callTooFew opens first most reads refused, fun _ h => by cases h⟩
    · obtain ⟨rfl, -⟩ := Cursor.next_of_ahead ahead
      exact ⟨_, .callMissing opens close refused, fun _ h => by cases h⟩
  | tooMany given comma most =>
    obtain ⟨first, some, last, reads⟩ := given.surplus inner same comma most
    rw [Cursor.next_of_peek] at first
    exact ⟨last, .callFails opens first some reads, fun _ h => by cases h⟩
  | notNone most opened =>
    rw [← ahead, Cursor.kindAt_ahead] at opened
    have span := hc.next.span
    have reads : Reads scope (.call levels ⟨name.text, primitive⟩ name.span) c _ _ :=
      .callSurplus opens opened most
    rw [span, ahead] at reads
    exact ⟨_, reads, fun _ h => by cases h⟩

/-- So is the operand that the call is. -/
theorem reads_operand (h : CallAnswer scope levels source name primitive inside rest answer)
    (hc : c.StandsIn source) (ahead : c.ahead = name :: opening :: inside)
    (named : name.kind = .name) (found : scope.resolve name.text = some (.function primitive))
    (opens : opening.kind = .openParen) :
    ∃ last, Reads scope (.operand levels) c answer last ∧
      ∀ e, answer = ok e → last.ahead = rest := by
  obtain ⟨rfl, parens⟩ := Cursor.next_of_ahead ahead
  obtain ⟨rfl, args⟩ := Cursor.next_of_ahead parens
  obtain ⟨last, reads, ended⟩ := h.reads hc.next opens args
  exact ⟨last, .function named found reads, ended⟩

/-- A call that is the whole text. -/
theorem parse_eq (h : CallAnswer scope levels source name primitive inside rest answer)
    (whole : tokens source = name :: opening :: inside) (named : name.kind = .name)
    (found : scope.resolve name.text = some (.function primitive))
    (opens : opening.kind = .openParen) (ended : ∀ e, answer = ok e → rest = []) :
    parse scope (levels + 1) source = answer := by
  have start : (Cursor.ofString source).peek.2.ahead = name :: opening :: inside :=
    (Cursor.ahead_peek _).trans whole
  obtain ⟨last, reads, left⟩ :=
    h.reads_operand (Cursor.StandsIn.start source).peek start named found opens
  have more : (Cursor.ofString source).next.1.isFinish = false := by
    rw [(Cursor.next_of_ahead whole).1, Token.isFinish, named]
    rfl
  cases answer with
  | error d => exact (Parses.fails more (.exprFails reads)).parse_ofString
  | ok e =>
    have none : last.ahead = [] := (left e rfl).trans (ended e rfl)
    have stop : Reads scope (.steps levels 0) last (ok []) last.peek.2 :=
      .stop (below_ahead_iff.mp (by simp [none, Below]))
    have finish : last.peek.2.next.1.isFinish = true := by
      rw [← Cursor.ahead_eq_nil_iff, Cursor.ahead_peek, none]
    exact (Parses.whole more (.expr reads stop) finish).parse_ofString

end CallAnswer

/-- A call all of whose arguments stand for something has an answer, and it is read if and only if
the function accepts as many. -/
theorem exists_callAnswer {scope : Scope} {levels : Nat} {source : String} {c : Cursor}
    {args : List Expr} {ts rest : List Token} {closing : Token} (hc : c.StandsIn source)
    (ahead : c.ahead = ts ++ closing :: rest)
    (given : Enclosed scope levels source args ts)
    (close : closing.kind = .closeParen) (name : Token) (primitive : Primitive) :
    ∃ left answer,
      CallAnswer scope levels source name primitive (ts ++ closing :: rest) left answer ∧
        ((∃ e, answer = ok e) ↔ primitive.arity.accepts args.length = true) := by
  by_cases accepted : primitive.arity.accepts args.length = true
  · exact ⟨rest, _, .accepted given close accepted, by simp [accepted]⟩
  by_cases few : args.length < primitive.arity.least
  · exact ⟨_, _, .tooFew given close few, by simp [accepted]⟩
  obtain ⟨most, hm, more⟩ : ∃ most, primitive.arity.most? = some most ∧ most < args.length := by
    simpa [Arity.accepts_iff, Nat.not_lt.mp few] using accepted
  rcases given with listed | ⟨rfl, -⟩
  · cases most with
    | zero =>
      have fits : ∀ most, (Arity.atLeast 0).most? = some most → 1 + args.length ≤ most + 1 :=
        fun _ h => by cases h
      obtain ⟨_, _, _, _, -, first, -⟩ :=
        listed.reads hc ahead (fun op => by simp [kindAt, close]) fits
      rw [← Cursor.kindAt_ahead, ahead] at first
      exact ⟨_, _, .notNone hm first, by simp [accepted]⟩
    | succ n =>
      obtain ⟨us, comma, vs, rfl, kind, first⟩ := listed.split more
      rw [List.append_assoc]
      refine ⟨_, _, .tooMany first kind ?_, by simp [accepted]⟩
      rw [hm, List.length_take, Nat.min_eq_left (Nat.le_of_lt more)]
  · cases more

/-- A call, wherever in a text it stands, is answered by the number of its arguments, and so is a
text that is nothing but a call. If all of its arguments stand for something, it is read if and
only if the function accepts as many. -/
theorem call_answered {scope : Scope} {levels : Nat} {source : String}
    {before inside rest : List Token} {name opening : Token} {primitive : Primitive}
    {answer : Except Diagnostic Expr}
    (place : tokens source = before ++ name :: opening :: inside) (named : name.kind = .name)
    (found : scope.resolve name.text = some (.function primitive))
    (opens : opening.kind = .openParen)
    (call : CallAnswer scope levels source name primitive inside rest answer) :
    (∀ c, (Cursor.ofString source).Past before.length c →
      (Expr.readOperand scope levels c).answer.1 = answer) ∧
    (before = [] → (∀ e, answer = ok e → rest = []) →
      parse scope (levels + 1) source = answer) ∧
    ∀ args ts closing after, inside = ts ++ closing :: after → closing.kind = .closeParen →
      Enclosed scope levels source args ts →
        ((∃ e, answer = ok e) ↔ primitive.arity.accepts args.length = true) := by
  have read : ∀ {c left told}, (Cursor.ofString source).Past before.length c →
      CallAnswer scope levels source name primitive inside left told →
      (Expr.readOperand scope levels c).answer.1 = told := by
    intro c left told taken call
    have ahead : c.ahead = name :: opening :: inside :=
      taken.ahead_eq.trans (Cursor.ahead_skip_append place)
    obtain ⟨last, reads, -⟩ := call.reads_operand ⟨_, taken⟩ ahead named found opens
    exact congrArg Prod.fst reads.outcome_eq
  refine ⟨fun c taken => read taken call, ?_, ?_⟩
  · rintro rfl ended
    exact call.parse_eq place named found opens ended
  · rintro args ts closing after rfl close given
    have start : (Cursor.ofString source).Past before.length
        ((Cursor.ofString source).skip before.length) := .inl rfl
    have within : ((Cursor.ofString source).skip before.length).next.2.next.2.StandsIn source :=
      ⟨_, (start.trans (.next _)).trans (.next _)⟩
    have ahead : ((Cursor.ofString source).skip before.length).next.2.next.2.ahead =
        ts ++ closing :: after := by
      obtain ⟨-, parens⟩ := Cursor.next_of_ahead (Cursor.ahead_skip_append place)
      exact (Cursor.next_of_ahead parens).2
    obtain ⟨left, told, call', accepted⟩ :=
      exists_callAnswer within ahead given close name primitive
    rwa [(read start call).symm.trans (read start call')]

/-- A second argument to a function of one is told at the token where it would start, whatever that
is. -/
theorem call_answered_surplus :
    (∃ arg, Stands ((Scope.empty.bind "x" (.cell "a")).withUnary "f" Float.neg) 63 "f(-x, ) + ("
      [⟨.operator .sub, ⟨2, 3⟩, "-"⟩, ⟨.name, ⟨3, 4⟩, "x"⟩] arg) ∧
      parse ((Scope.empty.bind "x" (.cell "a")).withUnary "f" Float.neg) 64 "f(-x, ) + (" =
        error ⟨.argumentCount, ⟨6, 7⟩⟩ := by
  let scope : Scope := (Scope.empty.bind "x" (.cell "a")).withUnary "f" Float.neg
  let rest : List Token :=
    [⟨.closeParen, ⟨6, 7⟩, ")"⟩, ⟨.operator .add, ⟨8, 9⟩, "+"⟩, ⟨.openParen, ⟨10, 11⟩, "("⟩]
  have place : tokens "f(-x, ) + (" =
      [] ++ ⟨.name, ⟨0, 1⟩, "f"⟩ :: ⟨.openParen, ⟨1, 2⟩, "("⟩ ::
        ([⟨.operator .sub, ⟨2, 3⟩, "-"⟩, ⟨.name, ⟨3, 4⟩, "x"⟩] ++
          ⟨.comma, ⟨4, 5⟩, ","⟩ :: rest) := by
    decide +kernel
  have found : scope.resolve "f" = some (.function (.unary Float.neg)) := rfl
  have alone : (parse scope 63 (.ofList ['-', 'x'])).toOption.isSome = true := by decide +kernel
  cases parsed : parse scope 63 (.ofList ['-', 'x']) with
  | error =>
    rw [parsed] at alone
    cases alone
  | ok e =>
    have stands : Stands scope 63 "f(-x, ) + ("
        [⟨.operator .sub, ⟨2, 3⟩, "-"⟩, ⟨.name, ⟨3, 4⟩, "x"⟩] (e.mapSpan (Span.shift 2)) :=
      ⟨⟨2, 4⟩, ['-', 'x'], e, rfl, rfl, by decide +kernel, parsed, rfl⟩
    obtain ⟨-, answered, -⟩ := call_answered place rfl found rfl (.tooMany (.one stands) rfl rfl)
    exact ⟨⟨_, stands⟩, answered rfl fun _ h => by cases h⟩

end Formula
