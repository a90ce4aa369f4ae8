import Formula.Proofs.Alike
import Formula.Proofs.Ending

/-!
# Reading again

What is read depends on the tokens up to the one at which reading ends, and on nothing else:
where another cursor hands out tokens that are alike, reading goes the same way, with the
spans of the other tokens (`Reads.replay`).
-/

namespace Formula

open Except (ok error)

/-- Two answers are both values that belong together, or both errors of one fault whose spans
are replaced by the same span. -/
inductive Similar (f g : Span → Span) {α β : Type} (R : α → β → Prop) :
    Except Diagnostic α → Except Diagnostic β → Prop where
  | ok {a : α} {b : β} : R a b → Similar f g R (ok a) (ok b)
  | error {d d' : Diagnostic} : d'.fault = d.fault → f d.span = g d'.span →
      Similar f g R (error d) (error d')

section

variable {f g : Span → Span} {α β α' β' : Type} {R : α → β → Prop} {R' : α' → β' → Prop}

theorem Similar.map {a : Except Diagnostic α} {b : Except Diagnostic β}
    (h : Similar f g R a b) (φ : α → α') (ψ : β → β') (hR : ∀ x y, R x y → R' (φ x) (ψ y)) :
    Similar f g R' (a.map φ) (b.map ψ) := by
  cases h with
  | ok h => exact .ok (hR _ _ h)
  | error fault span => exact .error fault span

theorem Token.Alike.refuse {a b : Token} (h : Token.Alike f g a b) (fault : Fault) :
    Similar f g R (error (a.refuse fault)) (error (b.refuse fault)) := by
  refine .error ?_ (by rw [Token.span_refuse, Token.span_refuse, h.span])
  simp only [Token.refuse, h.kind]
  cases a.kind <;> rfl

end

namespace Phrase

/-- The same phrase with another span for the name of its call. -/
abbrev rename (name' : Span) : Phrase → Phrase
  | expr levels least => expr levels least
  | operand levels => operand levels
  | steps levels least => steps levels least
  | call levels func _ => call levels func name'
  | args levels arity count => args levels arity count

/-- If the phrase has a name, its span and another are replaced by the same span. -/
def Named (f g : Span → Span) (name' : Span) : Phrase → Prop
  | call _ _ name => f name = g name'
  | _ => True

/-- Two values of a phrase become the same when their spans are replaced. -/
def Same (f g : Span → Span) (name' : Span) :
    (phrase : Phrase) → phrase.Answer → (phrase.rename name').Answer → Prop
  | expr _ _, e, e' => e.Alike f g e'
  | operand _, e, e' => e.Alike f g e'
  | steps _ _, run, run' => Expr.mapSpanSteps f run = Expr.mapSpanSteps g run'
  | call _ _ _, e, e' => e.Alike f g e'
  | args _ _ _, (list, close), (list', close') =>
    Expr.mapSpanArgs f list = Expr.mapSpanArgs g list' ∧ f close = g close'

/-- The phrase is read from another cursor with a similar answer, after as many tokens. -/
def Replays (scope : Scope) (f g : Span → Span) (phrase : Phrase) (k : Nat)
    (answer : Except Diagnostic phrase.Answer) (name' : Span) (c' : Cursor) : Prop :=
  ∃ answer' last', Reads scope (phrase.rename name') c' answer' last' ∧
    (phrase.rename name').Ends c' k answer' last' ∧
    Similar f g (phrase.Same f g name') answer answer'

end Phrase

open Phrase

/-- A phrase ends after some tokens, and from where the tokens up to there are alike it is read
again. -/
theorem Reads.replay {scope : Scope} {f g : Span → Span} (hf : Span.Spread f)
    (hg : Span.Spread g) {phrase : Phrase} {c last : Cursor}
    {answer : Except Diagnostic phrase.Answer} (h : Reads scope phrase c answer last) :
    ∃ k, phrase.Ends c k answer last ∧ ∀ name' c', phrase.Named f g name' →
      c.Agree f g k c' → phrase.Replays scope f g k answer name' c' := by
  induction h with
  | tooDeep =>
    refine ⟨0, .left 0 _ (.inl rfl), fun name' c' _ agree => ?_⟩
    exact ⟨_, _, .tooDeep, .left 0 _ (.inl rfl), .error rfl agree.first.span⟩
  | exprFails _ ih =>
    obtain ⟨k, ends, ih⟩ := ih
    refine ⟨k, ends, fun name' c' _ agree => ?_⟩
    obtain ⟨_, _, reads, ends', _ | ⟨fault, span⟩⟩ := ih name' c' trivial agree
    exact ⟨_, _, .exprFails reads, ends', .error fault span⟩
  | expr _ _ ih₁ ih₂ =>
    obtain ⟨j, ends₁, ih₁⟩ := ih₁
    obtain ⟨k, ends₂, ih₂⟩ := ih₂
    refine ⟨j + k, ends₁.expr ends₂, fun name' c' _ agree => ?_⟩
    obtain ⟨_, after', reads₁, ends₁', same₁⟩ := ih₁ name' c' trivial (agree.mono (by omega))
    cases same₁ with | ok same₁ =>
    obtain ⟨_, _, reads₂, ends₂', same₂⟩ :=
      ih₂ name' after' trivial (agree.past ends₁.1 ends₁'.1)
    exact ⟨_, _, .expr reads₁ reads₂, ends₁'.expr ends₂',
      same₂.map _ _ fun _ _ same₂ => Expr.Alike.chain hf hg same₁ same₂⟩
  | number kind =>
    refine ⟨1, .token kind (by simp), fun name' c' _ agree => ?_⟩
    have kind' := agree.first.kind.trans kind
    refine ⟨_, _, .number kind', .token kind' (by simp), .ok ?_⟩
    exact congrArg (Expr.literal · _) agree.first.span
  | unbound kind found =>
    refine ⟨0, .refused_of_kind kind (by simp) rfl, fun name' c' _ agree => ?_⟩
    have kind' := agree.first.kind.trans kind
    rw [← agree.first.text] at found
    refine ⟨_, _, .unbound kind' found, .refused_of_kind kind' (by simp) rfl, ?_⟩
    exact .error rfl agree.first.span
  | var kind found =>
    refine ⟨1, .token kind (by simp), fun name' c' _ agree => ?_⟩
    have kind' := agree.first.kind.trans kind
    have found' := found
    rw [← agree.first.text] at found'
    refine ⟨_, _, .var kind' found', .token kind' (by simp), .ok ?_⟩
    simp only [Same, Expr.Alike, Expr.mapSpan, agree.first.span, agree.first.text]
  | constant kind found =>
    refine ⟨1, .token kind (by simp), fun name' c' _ agree => ?_⟩
    have kind' := agree.first.kind.trans kind
    rw [← agree.first.text] at found
    refine ⟨_, _, .constant kind' found, .token kind' (by simp), .ok ?_⟩
    exact congrArg (Expr.literal · _) agree.first.span
  | function kind found _ ih =>
    obtain ⟨k, ends, ih⟩ := ih
    refine ⟨1 + k, ends.function, fun name' c' _ agree => ?_⟩
    have kind' := agree.first.kind.trans kind
    obtain ⟨_, _, reads, ends', same⟩ := ih c'.next.1.span c'.next.2 agree.first.span agree.next
    rw [← agree.first.text] at found reads
    refine ⟨_, _, .function kind' found reads, .function ends', ?_⟩
    cases same with
    | ok same => exact .ok same
    | error fault span => exact .error fault span
  | parenFails kind _ ih =>
    obtain ⟨k, ends, ih⟩ := ih
    refine ⟨1 + k, ends.next, fun name' c' _ agree => ?_⟩
    have kind' := agree.first.kind.trans kind
    obtain ⟨_, _, reads, ends', _ | ⟨fault, span⟩⟩ := ih name' c'.next.2 trivial agree.next
    exact ⟨_, _, .parenFails kind' reads, ends'.next, .error fault span⟩
  | paren kind _ close ih =>
    obtain ⟨k, ends, ih⟩ := ih
    refine ⟨1 + k + 1, ends.paren close, fun name' c' _ agree => ?_⟩
    have kind' := agree.first.kind.trans kind
    have inside := (agree.mono (m := 1 + k) (by omega)).next
    obtain ⟨_, closing', reads, ends', same⟩ := ih name' c'.next.2 trivial inside
    cases same with | ok same =>
    have closing := inside.ending ends.1 ends'.1
    have close' := closing.kind.trans close
    exact ⟨_, _, .paren kind' reads close', ends'.paren close',
      .ok (Expr.Alike.through hf hg same agree.first.span closing.span)⟩
  | parenOpen kind _ unclosed ih =>
    obtain ⟨k, ends, ih⟩ := ih
    refine ⟨1 + k, .refused ((Cursor.Past.next _).trans ends.1) rfl, ?_⟩
    intro name' c' _ agree
    have kind' := agree.first.kind.trans kind
    obtain ⟨_, closing', reads, ends', same⟩ := ih name' c'.next.2 trivial agree.next
    cases same with | ok same =>
    have closing := agree.next.ending ends.1 ends'.1
    rw [← closing.kind] at unclosed
    exact ⟨_, _, .parenOpen kind' reads unclosed,
      .refused ((Cursor.Past.next _).trans ends'.1) rfl, closing.refuse _⟩
  | minus kind _ ih =>
    obtain ⟨k, ends, ih⟩ := ih
    refine ⟨1 + k, ends.sign _, fun name' c' _ agree => ?_⟩
    have kind' := agree.first.kind.trans kind
    obtain ⟨_, _, reads, ends', same⟩ := ih name' c'.next.2 trivial agree.next
    exact ⟨_, _, .minus kind' reads, ends'.sign _,
      same.map _ _ fun e e' same => Expr.Alike.neg hf hg same agree.first.span⟩
  | plus kind _ ih =>
    obtain ⟨k, ends, ih⟩ := ih
    refine ⟨1 + k, ends.sign _, fun name' c' _ agree => ?_⟩
    have kind' := agree.first.kind.trans kind
    obtain ⟨_, _, reads, ends', same⟩ := ih name' c'.next.2 trivial agree.next
    refine ⟨_, _, .plus kind' reads, ends'.sign _, same.map _ _ fun e e' same => ?_⟩
    have span : f e.span = g e'.span := Expr.Alike.span same
    exact Expr.Alike.through hf hg same agree.first.span span
  | closed kind =>
    refine ⟨0, .refused_of_kind kind (by simp) rfl, fun name' c' _ agree => ?_⟩
    have kind' := agree.first.kind.trans kind
    refine ⟨_, _, .closed kind', .refused_of_kind kind' (by simp) rfl, ?_⟩
    exact .error rfl agree.first.span
  | noOperand starts closed =>
    refine ⟨0, .refused (.zero _) rfl, fun name' c' _ agree => ?_⟩
    rw [← agree.first.kind] at starts closed
    exact ⟨_, _, .noOperand starts closed, .refused (.zero _) rfl, agree.first.refuse _⟩
  | stop weak =>
    refine ⟨0, ⟨.peek _, .inl rfl⟩, fun name' c' _ agree => ?_⟩
    rw [← agree.first.kind] at weak
    exact ⟨_, _, .stop weak, ⟨.peek _, .inl rfl⟩, .ok rfl⟩
  | stepFails kind strong _ ih =>
    obtain ⟨k, ends, ih⟩ := ih
    refine ⟨1 + k, ends.next, fun name' c' _ agree => ?_⟩
    have kind' := agree.first.kind.trans kind
    obtain ⟨_, _, reads, ends', _ | ⟨fault, span⟩⟩ := ih name' c'.next.2 trivial agree.next
    exact ⟨_, _, .stepFails kind' strong reads, ends'.next, .error fault span⟩
  | step kind strong _ _ ih₁ ih₂ =>
    obtain ⟨j, ends₁, ih₁⟩ := ih₁
    obtain ⟨k, ends₂, ih₂⟩ := ih₂
    refine ⟨1 + j + k, ends₁.step _ ends₂, fun name' c' _ agree => ?_⟩
    have kind' := agree.first.kind.trans kind
    rw [Nat.add_assoc] at agree
    obtain ⟨_, after', reads₁, ends₁', same₁⟩ :=
      ih₁ name' c'.next.2 trivial (agree.next.mono (by omega))
    cases same₁ with | ok same₁ =>
    obtain ⟨_, _, reads₂, ends₂', same₂⟩ :=
      ih₂ name' after' trivial (agree.next.past ends₁.1 ends₁'.1)
    refine ⟨_, _, .step kind' strong reads₁ reads₂, ends₁'.step _ ends₂', ?_⟩
    refine same₂.map _ _ fun _ _ same₂ => ?_
    simp only [Same, Expr.Alike, Expr.mapSpanSteps] at same₁ same₂ ⊢
    rw [same₁, same₂, agree.first.span]
  | callUnopened kind =>
    refine ⟨0, .refused (.zero _) rfl, fun name' c' _ agree => ?_⟩
    rw [← agree.first.kind] at kind
    exact ⟨_, _, .callUnopened kind, .refused (.zero _) rfl, agree.first.refuse _⟩
  | callEmpty opening closing accepted =>
    refine ⟨2, .callEmpty closing, fun name' c' named agree => ?_⟩
    have opening' := agree.first.kind.trans opening
    have closing' := (agree.next (k := 1)).first.kind.trans closing
    exact ⟨_, _, .callEmpty opening' closing' accepted, .callEmpty closing',
      .ok (Expr.Alike.call hf hg _ rfl named (agree.next (k := 1)).first.span)⟩
  | callMissing opening closing accepted =>
    refine ⟨1, .missing 0 ?_ closing, fun name' c' _ agree => ?_⟩
    · rw [Cursor.nth, Cursor.skip, opening]; simp
    have opening' := agree.first.kind.trans opening
    have closing' := (agree.next (k := 0)).first.kind.trans closing
    refine ⟨_, _, .callMissing opening' closing' accepted, .missing 0 ?_ closing', ?_⟩
    · rw [Cursor.nth, Cursor.skip, opening']; simp
    exact .error rfl (agree.next (k := 0)).first.span
  | callSurplus opening closing none =>
    refine ⟨1, .surplus 0 (.inr closing), fun name' c' _ agree => ?_⟩
    have opening' := agree.first.kind.trans opening
    have inside := (agree.next (k := 0)).first
    rw [← inside.kind] at closing
    exact ⟨_, _, .callSurplus opening' closing none, .surplus 0 (.inr closing),
      .error rfl inside.span⟩
  | callFails opening closing none _ ih =>
    obtain ⟨k, ends, ih⟩ := ih
    refine ⟨1 + k, ErrorAt.after ends (.inr rfl), fun name' c' _ agree => ?_⟩
    have opening' := agree.first.kind.trans opening
    rw [← agree.next.first.kind] at closing
    have inside := agree.past (.inr rfl) (.inr rfl)
    obtain ⟨_, _, reads, ends', _ | ⟨fault, span⟩⟩ := ih name' c'.next.2.peek.2 trivial inside
    exact ⟨_, _, .callFails opening' closing none reads, ErrorAt.after ends' (.inr rfl),
      .error fault span⟩
  | call opening closing none _ accepted ih =>
    obtain ⟨k, ends, ih⟩ := ih
    refine ⟨1 + k + 1, ends.call, fun name' c' named agree => ?_⟩
    have opening' := agree.first.kind.trans opening
    have inside := (agree.mono (m := 1 + k) (by omega))
    rw [← inside.next.first.kind] at closing
    obtain ⟨_, _, reads, ends', same⟩ :=
      ih name' c'.next.2.peek.2 trivial (inside.past (.inr rfl) (.inr rfl))
    cases same with | @ok _ list' same =>
    obtain ⟨list', close'⟩ := list'
    simp only [Same, Named] at same named
    have length := congrArg List.length same.1
    simp only [Expr.length_mapSpanArgs] at length
    rw [length] at accepted
    exact ⟨_, _, .call opening' closing none reads accepted, ends'.call,
      .ok (Expr.Alike.call hf hg _ same.1 named same.2)⟩
  | callTooFew opening closing none _ accepted ih =>
    obtain ⟨k, ends, ih⟩ := ih
    refine ⟨1 + k, ends.callTooFew, fun name' c' _ agree => ?_⟩
    have opening' := agree.first.kind.trans opening
    rw [← agree.next.first.kind] at closing
    obtain ⟨_, _, reads, ends', same⟩ :=
      ih name' c'.next.2.peek.2 trivial (agree.past (.inr rfl) (.inr rfl))
    cases same with | @ok _ list' same =>
    obtain ⟨list', close'⟩ := list'
    simp only [Same] at same
    have length := congrArg List.length same.1
    simp only [Expr.length_mapSpanArgs] at length
    rw [length] at accepted
    exact ⟨_, _, .callTooFew opening' closing none reads accepted, ends'.callTooFew,
      .error rfl same.2⟩
  | argFails _ ih =>
    obtain ⟨k, ends, ih⟩ := ih
    refine ⟨k, ends, fun name' c' _ agree => ?_⟩
    obtain ⟨_, _, reads, ends', _ | ⟨fault, span⟩⟩ := ih name' c' trivial agree
    exact ⟨_, _, .argFails reads, ends', .error fault span⟩
  | argSurplus _ comma most ih =>
    obtain ⟨k, ends, ih⟩ := ih
    refine ⟨k + 1, ends.argSurplus comma, fun name' c' _ agree => ?_⟩
    obtain ⟨_, after', reads, ends', same⟩ := ih name' c' trivial (agree.mono (by omega))
    cases same with | ok same =>
    have rest := agree.past (k := 1) ends.1 ends'.1
    have comma' := rest.first.kind.trans comma
    exact ⟨_, _, .argSurplus reads comma' most, ends'.argSurplus comma',
      .error rfl (rest.next (k := 0)).first.span⟩
  | arg _ comma most _ ih₁ ih₂ =>
    obtain ⟨j, ends₁, ih₁⟩ := ih₁
    obtain ⟨k, ends₂, ih₂⟩ := ih₂
    refine ⟨j + 1 + k, ends₁.arg ends₂, fun name' c' _ agree => ?_⟩
    rw [Nat.add_assoc] at agree
    obtain ⟨_, after', reads₁, ends₁', same₁⟩ := ih₁ name' c' trivial (agree.mono (by omega))
    cases same₁ with | ok same₁ =>
    have rest := agree.past ends₁.1 ends₁'.1
    have comma' := rest.first.kind.trans comma
    obtain ⟨_, _, reads₂, ends₂', same₂⟩ := ih₂ name' after'.next.2 trivial rest.next
    refine ⟨_, _, .arg reads₁ comma' most reads₂, ends₁'.arg ends₂', ?_⟩
    refine same₂.map _ _ fun _ _ same₂ => ?_
    simp only [Same, Expr.Alike, Expr.mapSpanArgs] at same₁ same₂ ⊢
    rw [same₁, same₂.1]
    exact ⟨rfl, same₂.2⟩
  | argLast _ close ih =>
    obtain ⟨k, ends, ih⟩ := ih
    refine ⟨k, ends.argLast close, fun name' c' _ agree => ?_⟩
    obtain ⟨_, after', reads, ends', same⟩ := ih name' c' trivial agree
    cases same with | ok same =>
    have last := agree.ending ends.1 ends'.1
    have close' := last.kind.trans close
    refine ⟨_, _, .argLast reads close', ends'.argLast close', .ok ⟨?_, last.span⟩⟩
    simp only [Same, Expr.Alike, Expr.mapSpanArgs] at same ⊢
    rw [same]
  | argOpen _ comma close ih =>
    obtain ⟨k, ends, ih⟩ := ih
    refine ⟨k, .refused ends.1 rfl, fun name' c' _ agree => ?_⟩
    obtain ⟨_, after', reads, ends', same⟩ := ih name' c' trivial agree
    cases same with | ok same =>
    have last := agree.ending ends.1 ends'.1
    rw [← last.kind] at comma close
    exact ⟨_, _, .argOpen reads comma close, .refused ends'.1 rfl, last.refuse _⟩

/-- Every phrase ends after some tokens. -/
theorem Reads.ends {scope : Scope} {phrase : Phrase} {c last : Cursor}
    {answer : Except Diagnostic phrase.Answer} (h : Reads scope phrase c answer last) :
    ∃ k, phrase.Ends c k answer last := by
  obtain ⟨k, ends, -⟩ := h.replay (f := id) (g := id) (fun _ _ => rfl) (fun _ _ => rfl)
  exact ⟨k, ends⟩

/-- A phrase that stands in a text ends in it. -/
theorem Reads.standsIn {scope : Scope} {source : String} {phrase : Phrase} {c last : Cursor}
    {value : phrase.Answer} (h : Reads scope phrase c (ok value) last) (hc : c.StandsIn source) :
    last.StandsIn source := by
  obtain ⟨k, ends⟩ := h.ends
  cases phrase with
  | expr | operand | steps | call => exact hc.past ends.1
  | args => exact hc.past (.inl ends.1)

end Formula
