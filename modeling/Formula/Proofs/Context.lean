import Formula.Proofs.Pinpoint

/-!
# What is wrong is told by what came before

What has to come after some tokens is told by the last of them (`Scope.awaited`): an operand, the
parentheses of a call, or something that goes on after an operand. If another token comes, its
kind and the parentheses that are still open tell the fault (`Awaited.fault`).

The functions that read a formula return a fault in many places, and each of them is reached with
the same thing awaited (`Phrase.After`). So the fault of a text depends on the text alone, and not
on how far the functions are inside of each other (`parse_error_context`).
-/

namespace Formula

open Except (ok error)

/-- The kind of the first of some tokens, or the end of a text if there are none. -/
def kindAt : List Token → Token.Kind
  | [] => .finish
  | token :: _ => token.kind

theorem Cursor.kindAt_ahead (c : Cursor) : kindAt c.ahead = c.next.1.kind := by
  cases finish : c.next.1.isFinish with
  | false => rw [ahead_of_more finish, kindAt]
  | true =>
    rw [ahead_of_finish finish, kindAt]
    cases kind : c.next.1.kind <;> simp_all [Token.isFinish, Token.Kind.isFinish]

/-! ## Open parentheses -/

/-- How many parentheses are open after one more token. -/
def Token.Kind.nest (depth : Nat) : Kind → Nat
  | openParen => depth + 1
  | closeParen => depth - 1
  | _ => depth

/-- How many parentheses of some tokens are not closed in them. -/
def unclosed (ts : List Token) : Nat :=
  ts.foldl (fun depth token => token.kind.nest depth) 0

theorem unclosed_concat (ts : List Token) {token : Token} {kind : Token.Kind}
    (h : token.kind = kind) : unclosed (ts ++ [token]) = kind.nest (unclosed ts) := by
  rw [unclosed, List.foldl_append, ← unclosed, List.foldl_cons, List.foldl_nil, h]

/-- Parts that close what they open do so with commas between them. -/
theorem Separated.unclosed {parts : List (List Token)} {ts : List Token} (h : Separated parts ts)
    (hp : ∀ part ∈ parts, ∀ before, unclosed (before ++ part) = unclosed before)
    (before : List Token) : Formula.unclosed (before ++ ts) = Formula.unclosed before := by
  induction h generalizing before with
  | one => exact hp _ (List.mem_singleton_self _) before
  | more comma _ ih =>
    obtain ⟨here, others⟩ := List.forall_mem_cons.mp hp
    rw [← List.append_assoc, List.append_cons, ih others, unclosed_concat _ comma]
    exact here before

/-- A formula closes the parentheses that it opens, and no others. -/
theorem Derives.unclosed {scope : Scope} {levels : Nat} {layer : Layer} {ts : List Token} {t : Tree}
    (h : Derives scope levels layer ts t) (before : List Token) :
    Formula.unclosed (before ++ ts) = Formula.unclosed before := by
  induction h generalizing before with
  | ofProduct _ ih | ofSigned _ ih | ofPower _ ih | ofAtom _ ih => exact ih before
  | sum _ kind _ _ ih₁ ih₂ | product _ kind _ _ ih₁ ih₂ | power _ kind _ ih₁ ih₂ =>
    rw [← List.append_assoc, List.append_cons, ih₂, unclosed_concat _ kind]
    exact ih₁ before
  | minus kind _ ih | plus kind _ ih =>
    rw [List.append_cons, ih, unclosed_concat _ kind]
    rfl
  | number kind | constant kind | var kind => exact unclosed_concat before kind
  | paren opening _ closing ih =>
    rw [List.append_cons, ← List.append_assoc, unclosed_concat _ closing, ih,
      unclosed_concat _ opening]
    rfl
  | callEmpty kind _ opening closing =>
    rw [List.append_cons, List.append_cons, unclosed_concat _ closing, unclosed_concat _ opening,
      unclosed_concat _ kind]
    rfl
  | call kind _ opening _ separated closing _ ih =>
    have inside := separated.unclosed fun part hp => by
      obtain ⟨arg, ha, rfl⟩ := List.mem_map.mp hp
      exact ih arg ha
    rw [List.append_cons, List.append_cons, ← List.append_assoc, unclosed_concat _ closing, inside,
      unclosed_concat _ opening, unclosed_concat _ kind]
    rfl

/-! ## What has to come next -/

/-- What can come after some tokens. -/
inductive Awaited where
  | operand
  /-- The parentheses of a call. -/
  | call
  /-- An operator, or whatever else goes on after an operand. -/
  | operator

/-- What can come after a name that stands for something. -/
def Binding.awaited : Binding → Awaited
  | function _ => .call
  | cell _ | constant _ => .operator

/-- What a token of a kind and a text lets come after it. Nothing goes on after a name that stands
for nothing. -/
def Scope.awaitedAfter (scope : Scope) (text : String) : Token.Kind → Option Awaited
  | .operator _ | .openParen | .comma => some .operand
  | .number _ | .closeParen => some .operator
  | .name => (scope.resolve text).map Binding.awaited
  | .finish | .invalid _ => none

/-- What can come after some tokens: a formula starts with an operand. -/
def Scope.awaited (scope : Scope) (before : List Token) : Option Awaited :=
  match before.getLast? with
  | some token => scope.awaitedAfter token.text token.kind
  | none => some .operand

/-- What is wrong if a token comes after others that does not belong there. -/
def Awaited.fault (before : List Token) (next : Token.Kind) : Awaited → Fault
  | operand =>
    match next with
    | .finish => if before.isEmpty then .emptyExpression else .unexpectedToken
    | .closeParen => .unmatchedParen
    | .name => .unboundName
    | _ => .unexpectedToken
  | call => .unexpectedToken
  | operator =>
    if next = .closeParen ∨ 0 < unclosed before then .unmatchedParen else .trailingInput

theorem awaited_concat {scope : Scope} (before : List Token) {token : Token} {kind : Token.Kind}
    (h : token.kind = kind) :
    scope.awaited (before ++ [token]) = scope.awaitedAfter token.text kind := by
  rw [Scope.awaited, List.getLast?_concat, ← h]

theorem awaited_name {scope : Scope} (before : List Token) {token : Token} {binding : Binding}
    (h : token.kind = .name) (found : scope.resolve token.text = some binding) :
    scope.awaited (before ++ [token]) = some binding.awaited := by
  rw [awaited_concat before h, Scope.awaitedAfter, found, Option.map_some]

/-- An operand was complete when a formula ended. -/
theorem Derives.awaited {scope : Scope} {levels : Nat} {layer : Layer} {ts : List Token} {t : Tree}
    (h : Derives scope levels layer ts t) (before : List Token) :
    scope.awaited (before ++ ts) = some .operator := by
  induction h generalizing before with
  | ofProduct _ ih | ofSigned _ ih | ofPower _ ih | ofAtom _ ih => exact ih before
  | sum _ _ _ _ _ ih | product _ _ _ _ _ ih | power _ _ _ _ ih =>
    rw [← List.append_assoc, List.append_cons]
    exact ih _
  | minus _ _ ih | plus _ _ ih =>
    rw [List.append_cons]
    exact ih _
  | number kind => exact awaited_concat before kind
  | constant kind found | var kind found => exact awaited_name before kind found
  | paren _ _ closing =>
    rw [List.append_cons, ← List.append_assoc]
    exact awaited_concat _ closing
  | callEmpty _ _ _ closing =>
    rw [List.append_cons, List.append_cons]
    exact awaited_concat _ closing
  | call _ _ _ _ _ closing =>
    rw [List.append_cons, List.append_cons, ← List.append_assoc]
    exact awaited_concat _ closing

/-! ## Errors in reading -/

/-- The fault is the one that the tokens before it and the next one lead to. Two faults are not told
like this, as levels and arguments are counted for them, and an invalid token has a fault of its
own. -/
def Diagnostic.Told (scope : Scope) (d : Diagnostic) (before rest : List Token) : Prop :=
  (∀ token ∈ rest.head?, token.Valid) → d.fault ≠ .nestingTooDeep → d.fault ≠ .argumentCount →
    ∃ awaited, scope.awaited before = some awaited ∧ d.fault = awaited.fault before (kindAt rest)

section Told

variable {scope : Scope} {before : List Token} {awaited : Awaited} {c : Cursor} {fault : Fault}

theorem told_next (h : scope.awaited before = some awaited)
    (hf : fault = awaited.fault before c.next.1.kind) :
    Diagnostic.Told scope ⟨fault, c.next.1.span⟩ before c.ahead := by
  intro _ _ _
  exact ⟨awaited, h, by rw [c.kindAt_ahead]; exact hf⟩

/-- A token that is refused has the fault it is refused for. -/
theorem told_refuse (h : scope.awaited before = some awaited)
    (hf : fault = awaited.fault before c.next.1.kind) :
    (c.next.1.refuse fault).Told scope before c.ahead := by
  intro valid
  have one : ∀ own, c.next.1.kind ≠ .invalid own := by
    intro own kind
    rw [Cursor.ahead_of_kind kind rfl] at valid
    exact valid _ rfl own kind
  rw [Token.refuse_of_kind rfl one]
  exact told_next h hf valid

end Told

namespace Phrase

/-- What has come when a phrase is read. Between the arguments of a call its parenthesis is open,
and where an operator may come nothing has to be known. -/
def After (scope : Scope) : Phrase → List Token → Cursor → Prop
  | expr _ _, before, c => scope.awaited before = some .operand ∧ (before = [] → c.ahead ≠ [])
  | operand _, before, c => scope.awaited before = some .operand ∧ (before = [] → c.ahead ≠ [])
  | steps _ _, _, _ => True
  | call _ _ _, before, _ => scope.awaited before = some .call
  | args _ _ _, before, _ => scope.awaited before = some .operand ∧ 0 < unclosed before

/-- What is said of an answer: an error is at some token, and is told by what came before it. -/
def Told (scope : Scope) (size : Nat) (phrase : Phrase) (c : Cursor) :
    Except Diagnostic phrase.Answer → Prop
  | error d => ∀ before, phrase.After scope before c → ∃ p rest, c.ahead = p ++ rest ∧
      d.span = spanAt size rest ∧ d.Told scope (before ++ p) rest
  | ok _ => True

namespace Told

variable {scope : Scope} {size : Nat} {phrase part : Phrase} {c middle last : Cursor}
  {d : Diagnostic}

/-- An error of a part is one of the phrase, after the tokens before the part. -/
theorem after (h : part.Told scope size middle (error d)) (ts : List Token)
    (ahead : c.ahead = ts ++ middle.ahead)
    (ha : ∀ before, phrase.After scope before c → part.After scope (before ++ ts) middle) :
    phrase.Told scope size c (error d) := by
  intro before come
  obtain ⟨p, rest, e, span, told⟩ := h (before ++ ts) (ha before come)
  refine ⟨ts ++ p, rest, by rw [ahead, e, List.append_assoc], span, ?_⟩
  rwa [← List.append_assoc]

/-- An error at the token after some that were read. -/
theorem here (ends : middle.EndsAt size) (ts : List Token) (ahead : c.ahead = ts ++ middle.ahead)
    (span : d.span = middle.next.1.span)
    (told : ∀ before, phrase.After scope before c → d.Told scope (before ++ ts) middle.ahead) :
    phrase.Told scope size c (error d) :=
  fun before come => ⟨ts, middle.ahead, ahead, span.trans ends.span, told before come⟩

/-- An error that is not told by the tokens next to it. -/
theorem excused (h : Reads scope phrase c (error d) last) (ends : c.EndsAt size)
    (hd : d.fault = .nestingTooDeep ∨ d.fault = .argumentCount) :
    phrase.Told scope size c (error d) := by
  intro before _
  obtain ⟨p, rest, ahead, span, -⟩ := h.viable ends
  exact ⟨p, rest, ahead, span, fun _ deep count => absurd hd (not_or.mpr ⟨deep, count⟩)⟩

end Told

end Phrase

open Phrase

/-- An error in reading is told by what came before it. -/
theorem Reads.told {scope : Scope} {size : Nat} {phrase : Phrase} {c last : Cursor}
    {answer : Except Diagnostic phrase.Answer} (h : Reads scope phrase c answer last)
    (ends : c.EndsAt size) : phrase.Told scope size c answer := by
  induction h with
  | number | var | constant | paren | stop | callEmpty | call | argLast => trivial
  | tooDeep => exact .excused .tooDeep ends (.inl rfl)
  | callMissing opening close few =>
    exact .excused (.callMissing opening close few) ends (.inr rfl)
  | callSurplus opening some none =>
    exact .excused (.callSurplus opening some none) ends (.inr rfl)
  | callTooFew opening some none reads few =>
    exact .excused (.callTooFew opening some none reads few) ends (.inr rfl)
  | argSurplus reads comma most => exact .excused (.argSurplus reads comma most) ends (.inr rfl)
  | exprFails _ ih =>
    refine (ih ends).after [] rfl fun before come => ?_
    rw [List.append_nil]
    exact come
  | @expr levels least c after last first answer reads _ _ ih =>
    cases answer with
    | ok => trivial
    | error =>
      obtain ⟨_, us, -, ahead, -, -⟩ := reads.sound
      obtain ⟨k, taken, -⟩ := reads.ends
      exact (ih (ends.past taken)).after us ahead fun _ _ => trivial
  | unbound kind =>
    refine .here ends [] rfl rfl fun before come => ?_
    rw [List.append_nil]
    exact told_next come.1 (by rw [kind, Awaited.fault])
  | @function levels c last primitive answer kind found _ ih =>
    cases answer with
    | ok => trivial
    | error =>
      refine (ih ends.next).after [c.next.1] (Cursor.ahead_of_kind kind rfl) ?_
      exact fun before _ => awaited_name before kind found
  | @parenFails levels c last d kind _ ih =>
    refine (ih ends.next).after [c.next.1] (Cursor.ahead_of_kind kind rfl) ?_
    exact fun before _ => ⟨awaited_concat before kind, by simp⟩
  | @parenOpen levels c closing inner kind reads _ _ =>
    obtain ⟨_, us, -, ahead, derived, -⟩ := reads.sound (by omega)
    obtain ⟨k, taken, -⟩ := reads.ends
    have inside := Cursor.ahead_cons kind rfl ahead
    refine .here (ends.next.past taken) _ inside (Token.span_refuse _ _) fun before _ => ?_
    rw [List.append_cons]
    refine told_refuse (derived.awaited _) (if_pos (.inr ?_)).symm
    rw [derived.unclosed, unclosed_concat before kind]
    exact Nat.succ_pos _
  | @minus levels c last answer kind _ ih =>
    cases answer with
    | ok => trivial
    | error =>
      refine (ih ends.next).after [c.next.1] (Cursor.ahead_of_kind kind rfl) ?_
      exact fun before _ => ⟨awaited_concat before kind, by simp⟩
  | @plus levels c last answer kind _ ih =>
    cases answer with
    | ok => trivial
    | error =>
      refine (ih ends.next).after [c.next.1] (Cursor.ahead_of_kind kind rfl) ?_
      exact fun before _ => ⟨awaited_concat before kind, by simp⟩
  | closed kind =>
    refine .here ends [] rfl rfl fun before come => ?_
    rw [List.append_nil]
    exact told_next come.1 (by rw [kind, Awaited.fault])
  | @noOperand levels c starts close =>
    refine .here ends [] rfl (Token.span_refuse _ _) fun before come => ?_
    rw [List.append_nil]
    refine told_refuse come.1 ?_
    -- At the end of the text something has come, as an empty text is not read.
    cases kind : c.next.1.kind with
    | finish =>
      have some : before ≠ [] := fun none =>
        come.2 none (Cursor.ahead_of_finish ((Token.isFinish_of_kind kind).trans rfl))
      simp [Awaited.fault, some]
    | closeParen => exact absurd kind close
    | name => rw [kind] at starts; cases starts
    | _ => rfl
  | @stepFails levels least c last op d kind _ _ ih =>
    refine (ih ends.next).after [c.next.1] (Cursor.ahead_of_kind kind rfl) ?_
    exact fun before _ => ⟨awaited_concat before kind, by simp⟩
  | @step levels least c after last op operand answer kind _ reads _ _ ih =>
    cases answer with
    | ok => trivial
    | error =>
      obtain ⟨_, vs, -, ahead, -, -⟩ := reads.sound (by cases op <;> decide)
      obtain ⟨k, taken, -⟩ := reads.ends
      have inside := Cursor.ahead_cons kind rfl ahead
      exact (ih (ends.next.past taken)).after _ inside fun _ _ => trivial
  | callUnopened =>
    refine .here ends [] rfl (Token.span_refuse _ _) fun before come => ?_
    rw [List.append_nil]
    exact told_refuse come rfl
  | @callFails levels func name c last d opening _ _ _ ih =>
    have inside : c.ahead = [c.next.1] ++ c.next.2.peek.2.ahead := by
      rw [Cursor.ahead_peek, Cursor.ahead_of_kind opening rfl]; rfl
    refine (ih (ends.past (.inr rfl : c.Past 1 _))).after _ inside fun before _ => ?_
    refine ⟨awaited_concat before opening, ?_⟩
    rw [unclosed_concat before opening]
    exact Nat.succ_pos _
  | argFails _ ih =>
    refine (ih ends).after [] rfl fun before come => ?_
    rw [List.append_nil]
    refine ⟨come.1, ?_⟩
    rintro rfl
    exact absurd come.2 (Nat.lt_irrefl 0)
  | @arg levels arity count c after last arg answer reads comma _ _ _ ih =>
    cases answer with
    | ok => trivial
    | error =>
      obtain ⟨_, us, -, ahead, derived, -⟩ := reads.sound (by omega)
      obtain ⟨k, taken, -⟩ := reads.ends
      have inside := Cursor.ahead_concat ahead comma rfl
      refine (ih (ends.past taken).next).after _ inside fun before come => ?_
      rw [← List.append_assoc]
      refine ⟨awaited_concat _ comma, ?_⟩
      rw [unclosed_concat _ comma]
      exact Nat.lt_of_lt_of_eq come.2 (derived.unclosed before).symm
  | @argOpen levels arity count c after arg reads _ _ _ =>
    obtain ⟨_, us, -, ahead, derived, -⟩ := reads.sound (by omega)
    obtain ⟨k, taken, -⟩ := reads.ends
    refine .here (ends.past taken) _ ahead (Token.span_refuse _ _) fun before come => ?_
    refine told_refuse (derived.awaited before) (if_pos (.inr ?_)).symm
    rw [derived.unclosed]
    exact come.2

/-- An error of a parser is told by what came before it. -/
theorem Parses.told {scope : Scope} {levels : Nat} {c : Cursor} {d : Diagnostic} {q : Parser}
    {size : Nat} (h : Parses scope levels c (error d) q) (ends : c.EndsAt size) :
    ∃ before rest, c.ahead = before ++ rest ∧ d.span = spanAt size rest ∧
      d.Told scope before rest := by
  cases h with
  | empty finish =>
    refine ⟨[], c.ahead, rfl, ends.span, told_next rfl ?_⟩
    rw [← c.kindAt_ahead, Cursor.ahead_of_finish finish]
    rfl
  | fails more reads =>
    have some : c.ahead ≠ [] := by
      rw [Ne, Cursor.ahead_eq_nil_iff, more]
      simp
    have told := reads.told (ends.past (.peek c)) [] ⟨rfl, fun _ => by rwa [Cursor.ahead_peek]⟩
    rwa [Cursor.ahead_peek] at told
  | @more e last _ reads _ =>
    obtain ⟨_, before, -, ahead, derived, -⟩ := reads.sound (by omega)
    obtain ⟨k, taken, -⟩ := reads.ends
    rw [Cursor.ahead_peek] at ahead
    refine ⟨before, last.ahead, ahead, ?_, told_refuse (derived.awaited []) ?_⟩
    · rw [Token.span_refuse]
      exact (ends.past ((Cursor.Past.peek c).trans taken)).span
    · have closed : unclosed before = 0 := derived.unclosed []
      cases kind : last.next.1.kind <;> simp [Token.Kind.unread, Awaited.fault, closed]

/-- The fault of a text is told by the token at which it is found, the last one before it, and the
parentheses that are open there. This is not said of an invalid token, nor of the faults for which
levels or arguments are counted. -/
theorem parse_error_context {scope : Scope} {maxLevels : Nat} {source : String} {d : Diagnostic}
    (h : parse scope maxLevels source = error d) :
    ∃ before rest, d.IsAt source before rest ∧
      ((∀ token ∈ rest.head?, token.Valid) → d.fault ≠ .nestingTooDeep →
        d.fault ≠ .argumentCount →
        ∃ awaited, scope.awaited before = some awaited ∧
          d.fault = awaited.fault before (kindAt rest)) := by
  obtain ⟨answer, q, parses⟩ := exists_parses scope maxLevels (.ofString source)
  obtain rfl : answer = error d := parses.parse_ofString.symm.trans h
  obtain ⟨before, rest, ahead, span, told⟩ := parses.told (Cursor.endsAt_size rfl)
  rw [Cursor.size_ofString] at span
  exact ⟨before, rest, ⟨ahead, span⟩, told⟩

/-- A name right after another cannot go on, and two parentheses are open. -/
theorem parse_error_context_open :
    parse .empty 64 "max(-pi, (e + pi e) - pi" = error ⟨.unmatchedParen, ⟨17, 18⟩⟩ ∧
      ∃ before rest,
        Diagnostic.IsAt ⟨.unmatchedParen, ⟨17, 18⟩⟩ "max(-pi, (e + pi e) - pi" before rest ∧
        ∃ awaited, Scope.empty.awaited before = some awaited ∧
          Fault.unmatchedParen = awaited.fault before (kindAt rest) := by
  have failed : (Parser.ofString "max(-pi, (e + pi e) - pi" 64).error? .empty =
      some ⟨.unmatchedParen, ⟨17, 18⟩⟩ := by decide +kernel
  obtain ⟨q, failed⟩ := Parser.error?_eq_some_iff.mp failed
  have failed : parse .empty 64 "max(-pi, (e + pi e) - pi" = error ⟨.unmatchedParen, ⟨17, 18⟩⟩ :=
    congrArg Prod.fst failed
  have kinds : (tokens "max(-pi, (e + pi e) - pi").map Token.kind =
      [.name, .openParen, .operator .sub, .name, .comma, .openParen, .name, .operator .add, .name,
        .name, .closeParen, .operator .sub, .name] := by decide +kernel
  obtain ⟨before, rest, isAt, told⟩ := parse_error_context failed
  refine ⟨failed, before, rest, isAt, told (fun token ht own kind => ?_) (by simp) (by simp)⟩
  have among : token ∈ tokens "max(-pi, (e + pi e) - pi" := by
    rw [isAt.1]
    exact List.mem_append_right _ (List.mem_of_mem_head? ht)
  have invalid := List.mem_map_of_mem (f := Token.kind) among
  rw [kinds, kind] at invalid
  simp at invalid

end Formula
