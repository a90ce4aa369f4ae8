import Formula.Proofs.Context

/-!
# Invalid tokens

A text with an invalid token is no formula, and what is wrong with it is found at the first invalid
token at the latest. An error at an invalid token is the fault the token was read with, whatever the
place, unless it is about something else for which the token was only looked at: a level that is
missing, or an argument that is one too many (`invalid_keeps_fault`).

Every token before an error was taken, and a token that is taken is valid (`Phrase.Flags`). Where
the token of an error is an argument too many, the tokens before it end in a call that can take no
more (`Scope.Full`).
-/

namespace Formula

open Except (ok error)

/-- A number of arguments, each with a comma after it. -/
inductive Followed (scope : Scope) : Nat → List Token → Prop where
  | nil : Followed scope 0 []
  | cons {count : Nat} {us vs : List Token} {comma : Token} :
      Derivable scope .sum us → comma.kind = .comma → Followed scope count vs →
      Followed scope (count + 1) (us ++ comma :: vs)

/-- Some tokens end in a call that is not closed and has all the arguments that the function
accepts, with a comma after each: whatever comes next is one too many. -/
def Scope.Full (scope : Scope) (before : List Token) : Prop :=
  ∃ (front : List Token) (name opening : Token) (list : List Token) (primitive : Primitive)
    (count : Nat), before = front ++ name :: opening :: list ∧ name.kind = .name ∧
      scope.resolve name.text = some (.function primitive) ∧ opening.kind = .openParen ∧
      primitive.arity.most? = some count ∧ Followed scope count list

theorem Scope.Full.append {scope : Scope} {before : List Token} (h : scope.Full before)
    (ts : List Token) : scope.Full (ts ++ before) := by
  obtain ⟨front, name, opening, list, primitive, count, rfl, call⟩ := h
  exact ⟨ts ++ front, name, opening, list, primitive, count, (List.append_assoc ..).symm, call⟩

theorem Derivable.valid {scope : Scope} {layer : Layer} {ts : List Token}
    (h : Derivable scope layer ts) : ∀ token ∈ ts, token.Valid := by
  obtain ⟨_, _, derived⟩ := h
  exact derived.valid

/-- An expression is read off tokens that derive it. -/
theorem Reads.derivable {scope : Scope} {levels least size : Nat} {c last : Cursor} {e : Expr}
    (h : Reads scope (.expr levels least) c (ok e) last) (le : least ≤ 6) (ends : c.EndsAt size) :
    ∃ us, c.ahead = us ++ last.ahead ∧ Derivable scope (.ofPower least) us ∧ last.EndsAt size := by
  obtain ⟨_, us, -, ahead, derived, -⟩ := h.sound le
  obtain ⟨k, taken, -⟩ := h.ends
  exact ⟨us, ahead, ⟨_, _, derived⟩, ends.past taken⟩

namespace Phrase

/-- What was read of a phrase ends in a call that can take no more. In the call itself its name is
not among the tokens, and among the arguments its parenthesis is not either. -/
def Surplus (scope : Scope) : Phrase → List Token → Prop
  | call _ func _, p => scope.Full p ∨ ∃ (opening : Token) (list : List Token) (count : Nat),
      p = opening :: list ∧ opening.kind = .openParen ∧ func.arity.most? = some count ∧
      Followed scope count list
  | args _ arity count, p => scope.Full p ∨ ∃ most k, arity.most? = some most ∧
      most + 1 = count + k ∧ Followed scope k p
  | _, p => scope.Full p

/-- Arguments that were read are valid tokens before the closing parenthesis. -/
def Closed : (phrase : Phrase) → Cursor → phrase.Answer → Cursor → Prop
  | args _ _ _, c, (_, close), last => ∃ ts closing, c.ahead = ts ++ closing :: last.ahead ∧
      close = closing.span ∧ closing.kind = .closeParen ∧ ∀ token ∈ ts, token.Valid
  | _, _, _, _ => True

/-- An error after some tokens keeps the fault of an invalid token, or is about levels or an
argument too many. -/
def Keeps (scope : Scope) (phrase : Phrase) (p : List Token) (d : Diagnostic) (token : Token) :
    Prop :=
  ∀ own, token.kind = .invalid own →
    d.fault = own ∨ d.fault = .nestingTooDeep ∨ d.fault = .argumentCount ∧ phrase.Surplus scope p

/-- What is said of an answer: an error comes after valid tokens, and keeps the fault of the token
it is at. -/
def Flags (scope : Scope) (size : Nat) (phrase : Phrase) (c : Cursor) :
    Except Diagnostic phrase.Answer → Cursor → Prop
  | error d, _ => ∃ p rest, c.ahead = p ++ rest ∧ d.span = spanAt size rest ∧
      (∀ token ∈ p, token.Valid) ∧ ∀ token ∈ rest.head?, phrase.Keeps scope p d token
  | ok value, last => phrase.Closed c value last

variable {scope : Scope} {size : Nat} {phrase part : Phrase} {c middle last : Cursor}
  {d : Diagnostic} {p ts : List Token} {token : Token}

theorem keeps_of_kind {kind : Token.Kind} (h : token.kind = kind)
    (valid : ∀ own, kind ≠ .invalid own) : phrase.Keeps scope p d token :=
  fun own invalid => absurd (h.symm.trans invalid) (valid own)

/-- A token that is refused keeps its fault. -/
theorem keeps_refuse (token : Token) (fault : Fault) :
    phrase.Keeps scope p (token.refuse fault) token := by
  intro own kind
  left
  simp only [Token.refuse, kind]

namespace Flags

/-- An error of a part is one of the phrase, after the tokens before the part. -/
theorem after (h : part.Flags scope size middle (error d) last) (ts : List Token)
    (ahead : c.ahead = ts ++ middle.ahead) (valid : ∀ token ∈ ts, token.Valid)
    (hs : ∀ p, part.Surplus scope p → phrase.Surplus scope (ts ++ p)) :
    phrase.Flags scope size c (error d) last := by
  obtain ⟨p, rest, e, span, valid', keeps⟩ := h
  refine ⟨ts ++ p, rest, by rw [ahead, e, List.append_assoc], span,
    List.forall_mem_append.mpr ⟨valid, valid'⟩, fun token ht own kind => ?_⟩
  exact (keeps token ht own kind).imp_right (.imp_right (.imp_right (hs p)))

/-- So it is after one token. -/
theorem behind {kind : Token.Kind} (h : part.Flags scope size c.next.2 (error d) last)
    (hk : c.next.1.kind = kind) (more : kind.isFinish = false)
    (valid : ∀ own, kind ≠ .invalid own)
    (hs : ∀ p, part.Surplus scope p → phrase.Surplus scope (c.next.1 :: p)) :
    phrase.Flags scope size c (error d) last :=
  h.after [c.next.1] (Cursor.ahead_of_kind hk more)
    (List.forall_mem_singleton.mpr (Token.valid_of_kind hk valid)) hs

/-- An error at the token after some that were read. -/
theorem here (ends : middle.EndsAt size) (ts : List Token) (ahead : c.ahead = ts ++ middle.ahead)
    (valid : ∀ token ∈ ts, token.Valid) (span : d.span = middle.next.1.span)
    (keeps : phrase.Keeps scope ts d middle.next.1) :
    phrase.Flags scope size c (error d) last := by
  refine ⟨ts, middle.ahead, ahead, span.trans ends.span, valid, fun token ht => ?_⟩
  obtain ⟨rest, first⟩ := List.head?_eq_some_iff.mp (Option.mem_def.mp ht)
  rwa [← (Cursor.next_of_ahead first).1]

end Flags

end Phrase

open Phrase

/-- An error in reading comes after valid tokens, and keeps the fault of the token it is at. -/
theorem Reads.flags {scope : Scope} {size : Nat} {phrase : Phrase} {c last : Cursor}
    {answer : Except Diagnostic phrase.Answer} (h : Reads scope phrase c answer last)
    (ends : c.EndsAt size) : phrase.Flags scope size c answer last := by
  induction h with
  | number | var | constant | paren | stop | callEmpty | call => trivial
  | tooDeep => exact .here ends [] rfl (List.forall_mem_nil _) rfl fun _ _ => .inr (.inl rfl)
  | exprFails _ ih => exact (ih ends).after [] rfl (List.forall_mem_nil _) fun _ => id
  | @expr levels least c after last first answer reads _ _ ih =>
    cases answer with
    | ok => trivial
    | error =>
      obtain ⟨_, us, -, ahead, derived, -⟩ := reads.sound
      obtain ⟨k, taken, -⟩ := reads.ends
      exact (ih (ends.past taken)).after us ahead derived.valid fun _ full => full.append us
  | unbound kind =>
    exact .here ends [] rfl (List.forall_mem_nil _) rfl (keeps_of_kind kind (by simp))
  | @function levels c last primitive answer kind found _ ih =>
    cases answer with
    | ok => trivial
    | error =>
      refine (ih ends.next).behind kind rfl (by simp) ?_
      rintro p (full | ⟨opening, list, count, rfl, opens, most, followed⟩)
      · exact full.append [c.next.1]
      · exact ⟨[], c.next.1, opening, list, primitive, count, rfl, kind, found, opens, most,
          followed⟩
  | @parenFails levels c last d kind _ ih =>
    exact (ih ends.next).behind kind rfl (by simp) fun _ full => full.append [c.next.1]
  | @parenOpen levels c closing inner kind reads _ _ =>
    obtain ⟨us, ahead, derived, ends'⟩ := reads.derivable (by omega) ends.next
    exact .here ends' _ (Cursor.ahead_cons kind rfl ahead)
      (List.forall_mem_cons.mpr ⟨Token.valid_of_kind kind (by simp), derived.valid⟩)
      (Token.span_refuse _ _) (keeps_refuse _ _)
  | @minus levels c last answer kind _ ih | @plus levels c last answer kind _ ih =>
    cases answer with
    | ok => trivial
    | error =>
      exact (ih ends.next).behind kind rfl (by simp) fun _ full => full.append [c.next.1]
  | closed kind =>
    exact .here ends [] rfl (List.forall_mem_nil _) rfl (keeps_of_kind kind (by simp))
  | noOperand =>
    exact .here ends [] rfl (List.forall_mem_nil _) (Token.span_refuse _ _) (keeps_refuse _ _)
  | @stepFails levels least c last op d kind _ _ ih =>
    exact (ih ends.next).behind kind rfl (by simp) fun _ full => full.append [c.next.1]
  | @step levels least c after last op operand answer kind _ reads _ _ ih =>
    cases answer with
    | ok => trivial
    | error =>
      obtain ⟨us, ahead, derived, ends'⟩ := reads.derivable (by cases op <;> decide) ends.next
      exact (ih ends').after _ (Cursor.ahead_cons kind rfl ahead)
        (List.forall_mem_cons.mpr ⟨Token.valid_of_kind kind (by simp), derived.valid⟩)
        fun _ full => full.append _
  | callUnopened =>
    exact .here ends [] rfl (List.forall_mem_nil _) (Token.span_refuse _ _) (keeps_refuse _ _)
  | @callMissing levels func name c opening close =>
    exact .here ends.next [c.next.1] (Cursor.ahead_of_kind opening rfl)
      (List.forall_mem_singleton.mpr (Token.valid_of_kind opening (by simp))) rfl
      (keeps_of_kind close (by simp))
  | @callSurplus levels func name c opening _ none =>
    refine .here ends.next [c.next.1] (Cursor.ahead_of_kind opening rfl)
      (List.forall_mem_singleton.mpr (Token.valid_of_kind opening (by simp))) rfl fun _ _ => ?_
    exact .inr (.inr ⟨rfl, .inr ⟨c.next.1, [], 0, rfl, opening, none, .nil⟩⟩)
  | @callFails levels func name c last d opening _ _ _ ih =>
    have inside : c.ahead = [c.next.1] ++ c.next.2.peek.2.ahead := by
      rw [Cursor.ahead_peek, Cursor.ahead_of_kind opening rfl]; rfl
    refine (ih (ends.past (.inr rfl : c.Past 1 _))).after _ inside
      (List.forall_mem_singleton.mpr (Token.valid_of_kind opening (by simp))) ?_
    rintro p (full | ⟨most, k, found, number, followed⟩)
    · exact .inl (full.append _)
    · obtain rfl : most = k := by omega
      exact .inr ⟨c.next.1, p, most, rfl, opening, found, followed⟩
  | @callTooFew levels func name close c last list opening _ _ _ _ ih =>
    obtain ⟨ts, closing, ahead, rfl, kind, valid⟩ := ih (ends.past (.inr rfl : c.Past 1 _))
    refine ⟨c.next.1 :: ts, closing :: last.ahead, ?_, rfl,
      List.forall_mem_cons.mpr ⟨Token.valid_of_kind opening (by simp), valid⟩, ?_⟩
    · rw [Cursor.ahead_of_kind opening rfl, ← Cursor.ahead_peek, ahead]; rfl
    · rintro _ ⟨⟩
      exact keeps_of_kind kind (by simp)
  | argFails _ ih => exact (ih ends).after [] rfl (List.forall_mem_nil _) fun _ => .inl
  | @argSurplus levels arity count c after arg reads comma most _ =>
    obtain ⟨us, ahead, derived, ends'⟩ := reads.derivable (by omega) ends
    refine .here ends'.next _ (Cursor.ahead_concat ahead comma rfl)
      (List.forall_mem_append.mpr ⟨derived.valid,
        List.forall_mem_singleton.mpr (Token.valid_of_kind comma (by simp))⟩) rfl fun _ _ => ?_
    exact .inr (.inr ⟨rfl, .inr ⟨count, 1, most, rfl, .cons derived comma .nil⟩⟩)
  | @arg levels arity count c after last arg answer reads comma _ _ _ ih =>
    obtain ⟨us, ahead, derived, ends'⟩ := reads.derivable (by omega) ends
    have inside := Cursor.ahead_concat ahead comma rfl
    have valid : ∀ token ∈ us ++ [after.next.1], token.Valid := List.forall_mem_append.mpr
      ⟨derived.valid, List.forall_mem_singleton.mpr (Token.valid_of_kind comma (by simp))⟩
    have ih := ih ends'.next
    cases answer with
    | error =>
      refine ih.after _ inside valid ?_
      rintro p (full | ⟨most, k, found, number, followed⟩)
      · exact .inl (full.append _)
      · refine .inr ⟨most, k + 1, found, by omega, ?_⟩
        rw [List.append_assoc]
        exact .cons derived comma followed
    | ok =>
      obtain ⟨ts, closing, ahead', span, kind, valid'⟩ := ih
      refine ⟨(us ++ [after.next.1]) ++ ts, closing, ?_, span, kind,
        List.forall_mem_append.mpr ⟨valid, valid'⟩⟩
      rw [inside, ahead', List.append_assoc _ ts]
  | @argLast levels arity count c after arg reads close _ =>
    obtain ⟨us, ahead, derived, -⟩ := reads.derivable (by omega) ends
    refine ⟨us, after.next.1, ?_, rfl, close, derived.valid⟩
    rw [ahead, Cursor.ahead_of_kind close rfl]
  | @argOpen levels arity count c after arg reads _ _ _ =>
    obtain ⟨us, ahead, derived, ends'⟩ := reads.derivable (by omega) ends
    exact .here ends' us ahead derived.valid (Token.span_refuse _ _)
      (keeps_refuse _ _)

/-- An error of a parser comes after valid tokens, and keeps the fault of the token it is at. -/
theorem Parses.flags {scope : Scope} {levels : Nat} {c : Cursor} {d : Diagnostic} {q : Parser}
    {size : Nat} (h : Parses scope levels c (error d) q) (ends : c.EndsAt size) :
    (expr levels 0).Flags scope size c (error d) q.cursor := by
  cases h with
  | empty finish =>
    refine ⟨[], c.ahead, rfl, ends.span, List.forall_mem_nil _, fun token ht => ?_⟩
    rw [Cursor.ahead_of_finish finish] at ht
    cases ht
  | fails _ reads =>
    have flags := reads.flags (ends.past (.peek c))
    rwa [Flags, Cursor.ahead_peek] at flags
  | @more e last _ reads _ =>
    obtain ⟨us, ahead, derived, ends'⟩ := reads.derivable (by omega) (ends.past (.peek c))
    rw [Cursor.ahead_peek] at ahead
    exact .here ends' us ahead derived.valid
      (Token.span_refuse _ _) (keeps_refuse _ _)

/-- A text with an invalid token is no formula. -/
theorem parse_ne_ok_of_invalid {scope : Scope} {maxLevels : Nat} {source : String} {token : Token}
    {own : Fault} (mem : token ∈ tokens source) (invalid : token.kind = .invalid own) (e : Expr) :
    parse scope maxLevels source ≠ ok e := by
  intro h
  obtain ⟨_, derived⟩ := derives_of_parse h
  exact derived.valid token mem own invalid

/-- What is wrong with a text that has an invalid token starts no later than the token. An error
that starts at the token is at the token, and has the fault that the token was read with, but for a
level that is missing and for an argument that is one too many. -/
theorem invalid_keeps_fault {scope : Scope} {maxLevels : Nat} {source : String}
    {before after : List Token} {token : Token} {own : Fault}
    (split : tokens source = before ++ token :: after) (invalid : token.kind = .invalid own) :
    ∃ d, parse scope maxLevels source = error d ∧ d.span.start ≤ token.span.start ∧
      (d.span.start = token.span.start → d.span = token.span ∧
        (d.fault = own ∨ d.fault = .nestingTooDeep ∨
          d.fault = .argumentCount ∧ scope.Full before)) := by
  obtain ⟨answer, q, parses⟩ := exists_parses scope maxLevels (.ofString source)
  have parsed := parses.parse_ofString
  cases answer with
  | ok e => exact absurd parsed (parse_ne_ok_of_invalid (by simp [split]) invalid e)
  | error d =>
    obtain ⟨p, rest, ahead, span, valid, keeps⟩ := parses.flags (Cursor.endsAt_size rfl)
    have same : p ++ rest = before ++ token :: after := ahead.symm.trans split
    have ordered := ordered_tokens source
    refine ⟨d, parsed, ?_⟩
    -- The token is not one of those before the error, as they are valid.
    obtain ⟨mid, rfl, rfl⟩ : ∃ mid, before = p ++ mid ∧ rest = mid ++ token :: after := by
      rcases List.append_eq_append_iff.mp same with ⟨mid, e, e'⟩ | ⟨mid, rfl, e⟩
      · exact ⟨mid, e, e'⟩
      · cases mid with
        | nil => exact ⟨[], by simp, e.symm⟩
        | cons first mid =>
          obtain ⟨rfl, -⟩ := List.cons.inj e
          exact absurd invalid (valid token (by simp) own)
    cases mid with
    | nil =>
      rw [List.append_nil]
      exact ⟨Nat.le_of_eq (congrArg Span.start span), fun _ => ⟨span, keeps token rfl own invalid⟩⟩
    | cons first mid =>
      rw [split, List.append_assoc] at ordered
      have lt : first.span.start < token.span.start := ordered.of_append.start_lt
      rw [show d.span = first.span from span]
      exact ⟨Nat.le_of_lt lt, fun start => absurd start (Nat.ne_of_lt lt)⟩

/-- The second argument is a malformed number, and what comes after it does not matter. -/
theorem invalid_keeps_fault_argument :
    parse .empty 64 "pow(pi, 2e+) - $" = error ⟨.malformedNumber, ⟨8, 11⟩⟩ ∧
      ∃ before after,
        tokens "pow(pi, 2e+) - $" =
          before ++ ⟨.invalid .malformedNumber, ⟨8, 11⟩, "2e+"⟩ :: after ∧
        ∃ d, parse .empty 64 "pow(pi, 2e+) - $" = error d ∧ d.span.start ≤ 8 ∧
          (d.span.start = 8 → d.span = ⟨8, 11⟩ ∧
            (d.fault = .malformedNumber ∨ d.fault = .nestingTooDeep ∨
              d.fault = .argumentCount ∧ Scope.empty.Full before)) := by
  have split : tokens "pow(pi, 2e+) - $" =
      [⟨.name, ⟨0, 3⟩, "pow"⟩, ⟨.openParen, ⟨3, 4⟩, "("⟩, ⟨.name, ⟨4, 6⟩, "pi"⟩,
        ⟨.comma, ⟨6, 7⟩, ","⟩] ++
      ⟨.invalid .malformedNumber, ⟨8, 11⟩, "2e+"⟩ ::
        [⟨.closeParen, ⟨11, 12⟩, ")"⟩, ⟨.operator .sub, ⟨13, 14⟩, "-"⟩,
          ⟨.invalid .unexpectedToken, ⟨15, 16⟩, "$"⟩] := by
    decide +kernel
  have failed : (Parser.ofString "pow(pi, 2e+) - $" 64).error? .empty =
      some ⟨.malformedNumber, ⟨8, 11⟩⟩ := by decide +kernel
  obtain ⟨q, failed⟩ := Parser.error?_eq_some_iff.mp failed
  exact ⟨congrArg Prod.fst failed, _, _, split, invalid_keeps_fault split rfl⟩

/-- After a comma that no argument may follow, an invalid token is taken for an argument too
many. -/
theorem invalid_taken_as_surplus :
    ¬ ∀ (scope : Scope) (maxLevels : Nat) (source : String) (token : Token) (own : Fault)
        (d : Diagnostic),
      token ∈ tokens source → token.kind = .invalid own →
      parse scope maxLevels source = error d → d.fault ≠ .nestingTooDeep → d.span = token.span →
      d.fault = own := by
  intro keeps
  have mem : ⟨.invalid .unexpectedToken, ⟨8, 9⟩, "$"⟩ ∈ tokens "sin(pi, $)" := by decide +kernel
  have failed : (Parser.ofString "sin(pi, $)" 64).error? .empty =
      some ⟨.argumentCount, ⟨8, 9⟩⟩ := by decide +kernel
  obtain ⟨q, failed⟩ := Parser.error?_eq_some_iff.mp failed
  cases keeps .empty 64 _ _ _ _ mem rfl (congrArg Prod.fst failed) (by simp) rfl

end Formula
