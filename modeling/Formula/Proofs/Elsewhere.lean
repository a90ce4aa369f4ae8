import Mathlib.Data.List.Forall2
import Formula.Proofs.Grammar.Sound
import Formula.Proofs.Replay
import Formula.Proofs.Shift
import Formula.Proofs.Taken

/-!
# Reading elsewhere

A value is read wherever the tokens that were taken for it are, and then something at which
reading can stop too (`Reads.elsewhere`). Reading does not see where in a text it happens, and of
what comes after a value it sees no more than how tightly an operator there binds.
-/

namespace Formula

open Except (ok error)

/-- Tokens that are alike one by one. -/
abbrev Likewise (f g : Span → Span) (ts ts' : List Token) : Prop :=
  List.Forall₂ (Token.Alike f g) ts ts'

/-- Reading that stops in front of some tokens stops in front of others too. -/
def Stops (ahead rest : List Token) : Prop :=
  ∀ power, Below power ahead → Below power rest

section

variable {f g : Span → Span} {us vs ts ts' ahead rest : List Token} {token : Token}

theorem Likewise.of_append (h : Likewise f g (us ++ vs) ts') :
    ∃ us' vs', ts' = us' ++ vs' ∧ Likewise f g us us' ∧ Likewise f g vs vs' :=
  ⟨ts'.take us.length, ts'.drop us.length, (List.take_append_drop _ _).symm,
    (List.forall₂_take_append ts' us vs h.flip).flip,
    (List.forall₂_drop_append ts' us vs h.flip).flip⟩

/-- Tokens that stand some bytes further on. -/
theorem likewise_shift (bytes : Nat) (ts : List Token) :
    Likewise id (Span.shift bytes) (ts.map (Token.shift bytes)) ts ∧
      Likewise (Span.shift bytes) id ts (ts.map (Token.shift bytes)) :=
  ⟨List.forall₂_map_left_iff.mpr (List.forall₂_same.mpr fun _ _ => ⟨rfl, rfl, rfl⟩),
    List.forall₂_map_right_iff.mpr (List.forall₂_same.mpr fun _ _ => ⟨rfl, rfl, rfl⟩)⟩

theorem stops_nil (ahead : List Token) : Stops ahead [] :=
  fun _ _ _ ht => by cases ht

theorem stops_of_kind {kind : Token.Kind} (h : token.kind = kind)
    (hk : ∀ op, kind ≠ .operator op) (ahead rest : List Token) : Stops ahead (token :: rest) := by
  rintro power - _ ⟨⟩ op operator
  exact absurd (h.symm.trans operator) (hk op)

/-- Behind alike tokens reading stops if it does so behind none. -/
theorem Likewise.stops (h : Likewise f g ts ts') (stops : Stops ahead rest) :
    Stops (ts ++ ahead) (ts' ++ rest) := by
  cases h with
  | nil => exact stops
  | cons first _ =>
    rintro power below _ ⟨⟩ op operator
    exact below _ rfl op (first.kind.symm.trans operator)

end

namespace Phrase

/-- What is said of an answer: a value that is read is read from another cursor too, with the spans
of the tokens that are there. -/
def Elsewhere (scope : Scope) (f g : Span → Span) (phrase : Phrase) (c last : Cursor) :
    Except Diagnostic phrase.Answer → Prop
  | error _ => True
  | ok value => ∃ ts, c.ahead = ts ++ last.ahead ∧
    ∀ (name' : Span) (c' : Cursor) (ts' rest : List Token), phrase.Named f g name' →
      Likewise f g ts ts' → c'.ahead = ts' ++ rest → Stops last.ahead rest →
        ∃ value' last', Reads scope (phrase.rename name') c' (ok value') last' ∧
          last'.ahead = rest ∧ phrase.Same f g name' value value'

/-- An operand of one token is read elsewhere if it is read wherever that token is the next. -/
theorem Elsewhere.token {scope : Scope} {f g : Span → Span} {levels : Nat} {c : Cursor} {e : Expr}
    {kind : Token.Kind} (h : c.next.1.kind = kind) (more : kind.isFinish = false)
    (again : ∀ c', Token.Alike f g c.next.1 c'.next.1 →
      ∃ e', Reads scope (operand levels) c' (ok e') c'.next.2 ∧ e.Alike f g e') :
    (operand levels).Elsewhere scope f g c c.next.2 (ok e) := by
  refine ⟨[c.next.1], Cursor.ahead_of_kind h more, fun _ c' _ rest _ like ahead _ => ?_⟩
  obtain _ | ⟨first, ⟨⟩⟩ := like
  obtain ⟨rfl, ended⟩ := Cursor.next_of_ahead ahead
  obtain ⟨e', reads, same⟩ := again c' first
  exact ⟨e', _, reads, ended, same⟩

end Phrase

open Phrase

/-- A value is read wherever alike tokens are, if reading can stop after them. -/
theorem Reads.elsewhere {scope : Scope} {f g : Span → Span} (hf : Span.Spread f)
    (hg : Span.Spread g) {phrase : Phrase} {c last : Cursor}
    {answer : Except Diagnostic phrase.Answer} (h : Reads scope phrase c answer last) :
    phrase.Elsewhere scope f g c last answer := by
  induction h with
  | tooDeep | exprFails | unbound | parenFails | parenOpen | closed | noOperand | stepFails
  | callUnopened | callMissing | callSurplus | callFails | callTooFew | argFails | argSurplus
  | argOpen => trivial
  | @expr _ _ _ _ _ _ answer _ _ ih₁ ih₂ =>
    cases answer with
    | error => trivial
    | ok steps =>
      obtain ⟨us, e₁, ih₁⟩ := ih₁
      obtain ⟨vs, e₂, ih₂⟩ := ih₂
      refine ⟨us ++ vs, ?_, fun name' c' _ rest _ like ahead stops => ?_⟩
      · rw [e₁, e₂, List.append_assoc]
      obtain ⟨us', vs', rfl, hu, hv⟩ := like.of_append
      rw [List.append_assoc] at ahead
      obtain ⟨first', after', reads₁, ended₁, same₁⟩ :=
        ih₁ name' c' us' (vs' ++ rest) trivial hu ahead (e₂ ▸ hv.stops stops)
      obtain ⟨steps', last', reads₂, ended₂, same₂⟩ :=
        ih₂ name' after' vs' rest trivial hv ended₁ stops
      exact ⟨_, last', .expr reads₁ reads₂, ended₂, Expr.Alike.chain hf hg same₁ same₂⟩
  | number kind =>
    exact .token kind rfl fun _ first =>
      ⟨_, .number (first.kind.trans kind), congrArg (Expr.literal · _) first.span⟩
  | var kind found =>
    refine .token kind rfl fun _ first => ?_
    have found' := found
    rw [← first.text] at found'
    refine ⟨_, .var (first.kind.trans kind) found', ?_⟩
    simp only [Expr.Alike, Expr.mapSpan, first.span, first.text]
  | constant kind found =>
    refine .token kind rfl fun _ first => ?_
    rw [← first.text] at found
    exact ⟨_, .constant (first.kind.trans kind) found, congrArg (Expr.literal · _) first.span⟩
  | @function _ c _ _ answer kind found _ ih =>
    cases answer with
    | error => trivial
    | ok =>
      obtain ⟨ts, e, ih⟩ := ih
      have taken := Cursor.ahead_cons kind rfl e
      refine ⟨c.next.1 :: ts, taken, fun _ c' _ rest _ like ahead stops => ?_⟩
      obtain _ | ⟨first, like⟩ := like
      obtain ⟨rfl, behind⟩ := Cursor.next_of_ahead ahead
      obtain ⟨value', last', reads, ended, same⟩ :=
        ih c'.next.1.span c'.next.2 _ rest first.span like behind stops
      rw [← first.text] at found reads
      exact ⟨value', last', .function (first.kind.trans kind) found reads, ended, same⟩
  | @paren _ c closing _ kind _ close ih =>
    obtain ⟨ts, e, ih⟩ := ih
    have taken := Cursor.ahead_concat (Cursor.ahead_cons kind rfl e) close rfl
    refine ⟨c.next.1 :: ts ++ [closing.next.1], taken, fun name' c' _ rest _ like ahead _ => ?_⟩
    obtain _ | ⟨first, like⟩ := like
    obtain ⟨us', _, rfl, hu, hc⟩ := Likewise.of_append like
    obtain _ | ⟨last, ⟨⟩⟩ := hc
    rw [List.cons_append, List.append_assoc] at ahead
    obtain ⟨rfl, behind⟩ := Cursor.next_of_ahead ahead
    have close' := last.kind.trans close
    obtain ⟨_, closing', reads, closed, same⟩ :=
      ih name' c'.next.2 us' _ trivial hu behind (stops_of_kind close' (by simp) _ _)
    obtain ⟨rfl, ended⟩ := Cursor.next_of_ahead closed
    exact ⟨_, _, .paren (first.kind.trans kind) reads close', ended,
      Expr.Alike.through hf hg same first.span last.span⟩
  | @minus _ c _ answer kind _ ih =>
    cases answer with
    | error => trivial
    | ok operand =>
      obtain ⟨ts, e, ih⟩ := ih
      have taken := Cursor.ahead_cons kind rfl e
      refine ⟨c.next.1 :: ts, taken, fun name' c' _ rest _ like ahead stops => ?_⟩
      obtain _ | ⟨first, like⟩ := like
      obtain ⟨rfl, behind⟩ := Cursor.next_of_ahead ahead
      obtain ⟨_, last', reads, ended, same⟩ := ih name' c'.next.2 _ rest trivial like behind stops
      exact ⟨_, last', .minus (first.kind.trans kind) reads, ended,
        Expr.Alike.neg hf hg same first.span⟩
  | @plus _ c _ answer kind _ ih =>
    cases answer with
    | error => trivial
    | ok operand =>
      obtain ⟨ts, e, ih⟩ := ih
      have taken := Cursor.ahead_cons kind rfl e
      refine ⟨c.next.1 :: ts, taken, fun name' c' _ rest _ like ahead stops => ?_⟩
      obtain _ | ⟨first, like⟩ := like
      obtain ⟨rfl, behind⟩ := Cursor.next_of_ahead ahead
      obtain ⟨_, last', reads, ended, same⟩ := ih name' c'.next.2 _ rest trivial like behind stops
      exact ⟨_, last', .plus (first.kind.trans kind) reads, ended,
        Expr.Alike.through hf hg same first.span (Expr.Alike.span same)⟩
  | @stop _ _ c weak =>
    refine ⟨[], by rw [Cursor.ahead_peek]; rfl, fun _ c' _ rest _ like ahead stops => ?_⟩
    obtain ⟨⟩ := like
    rw [Cursor.ahead_peek] at stops
    have weak' := stops _ (below_ahead_iff.mpr weak)
    rw [← List.nil_append rest, ← ahead] at weak'
    exact ⟨[], _, .stop (below_ahead_iff.mp weak'), (Cursor.ahead_peek c').trans ahead, rfl⟩
  | @step _ _ c _ _ _ operand answer kind strong _ _ ih₁ ih₂ =>
    cases answer with
    | error => trivial
    | ok steps =>
      obtain ⟨us, e₁, ih₁⟩ := ih₁
      obtain ⟨vs, e₂, ih₂⟩ := ih₂
      refine ⟨c.next.1 :: us ++ vs, ?_, fun name' c' _ rest _ like ahead stops => ?_⟩
      · rw [Cursor.ahead_cons kind rfl e₁, e₂, List.append_assoc]
      obtain _ | ⟨first, like⟩ := like
      obtain ⟨us', vs', rfl, hu, hv⟩ := Likewise.of_append like
      rw [List.cons_append, List.append_assoc] at ahead
      obtain ⟨rfl, behind⟩ := Cursor.next_of_ahead ahead
      obtain ⟨operand', after', reads₁, ended₁, same₁⟩ :=
        ih₁ name' c'.next.2 us' (vs' ++ rest) trivial hu behind (e₂ ▸ hv.stops stops)
      obtain ⟨steps', last', reads₂, ended₂, same₂⟩ :=
        ih₂ name' after' vs' rest trivial hv ended₁ stops
      refine ⟨_, last', .step (first.kind.trans kind) strong reads₁ reads₂, ended₂, ?_⟩
      simp only [Same, Expr.Alike, Expr.mapSpanSteps] at same₁ same₂ ⊢
      rw [same₁, same₂, first.span]
  | @callEmpty _ _ _ c opening closing accepted =>
    refine ⟨[c.next.1, c.next.2.next.1], ?_, fun _ c' _ rest named like ahead _ => ?_⟩
    · rw [Cursor.ahead_of_kind opening rfl, Cursor.ahead_of_kind closing rfl]
      rfl
    obtain _ | ⟨first, _ | ⟨last, ⟨⟩⟩⟩ := like
    obtain ⟨rfl, behind⟩ := Cursor.next_of_ahead ahead
    obtain ⟨rfl, ended⟩ := Cursor.next_of_ahead behind
    exact ⟨_, _, .callEmpty (first.kind.trans opening) (last.kind.trans closing) accepted, ended,
      Expr.Alike.call hf hg _ rfl named last.span⟩
  | @call _ _ _ _ c _ _ opening closing none args accepted ih =>
    obtain ⟨ts, e, ih⟩ := ih
    obtain ⟨us, e', stop⟩ := args.takes
    obtain rfl : ts = us := List.append_cancel_right (e.symm.trans e')
    rw [Cursor.ahead_peek] at e
    have taken := Cursor.ahead_cons opening rfl e
    refine ⟨c.next.1 :: ts, taken, fun name' c' _ rest named like ahead stops => ?_⟩
    obtain _ | ⟨first, like⟩ := like
    obtain ⟨rfl, behind⟩ := Cursor.next_of_ahead ahead
    have closing' : c'.next.2.next.1.kind ≠ .closeParen := by
      cases like with
      | nil => cases stop
      | cons inner _ =>
        rw [(Cursor.next_of_ahead e).1, ← inner.kind] at closing
        rwa [(Cursor.next_of_ahead behind).1]
    obtain ⟨⟨args', close'⟩, last', reads, ended, same⟩ :=
      ih name' c'.next.2.peek.2 _ rest trivial like ((Cursor.ahead_peek _).trans behind) stops
    have length := congrArg List.length same.1
    simp only [Expr.length_mapSpanArgs] at length
    rw [length] at accepted
    exact ⟨_, last', .call (first.kind.trans opening) closing' none reads accepted, ended,
      Expr.Alike.call hf hg _ same.1 named same.2⟩
  | @arg _ _ _ _ after _ _ answer _ comma most _ ih₁ ih₂ =>
    cases answer with
    | error => trivial
    | ok =>
      obtain ⟨us, e₁, ih₁⟩ := ih₁
      obtain ⟨vs, e₂, ih₂⟩ := ih₂
      refine ⟨us ++ after.next.1 :: vs, ?_, fun name' c' _ rest _ like ahead stops => ?_⟩
      · rw [e₁, Cursor.ahead_cons comma rfl e₂, List.append_assoc]
      obtain ⟨us', _, rfl, hu, hc⟩ := like.of_append
      obtain _ | @⟨_, _, _, vs', first, hv⟩ := hc
      rw [List.append_assoc] at ahead
      have comma' := first.kind.trans comma
      obtain ⟨arg', after', reads₁, ended₁, same₁⟩ :=
        ih₁ name' c' us' _ trivial hu ahead (stops_of_kind comma' (by simp) _ _)
      obtain ⟨rfl, behind⟩ := Cursor.next_of_ahead ended₁
      obtain ⟨⟨args', close'⟩, last', reads₂, ended₂, same₂, close⟩ :=
        ih₂ name' after'.next.2 vs' rest trivial hv behind stops
      refine ⟨_, last', .arg reads₁ comma' most reads₂, ended₂, ?_, close⟩
      simp only [Same, Expr.Alike, Expr.mapSpanArgs] at same₁ same₂ ⊢
      rw [same₁, same₂]
  | @argLast _ _ _ _ after _ _ close ih =>
    obtain ⟨us, e, ih⟩ := ih
    have taken := Cursor.ahead_concat e close rfl
    refine ⟨us ++ [after.next.1], taken, fun name' c' _ rest _ like ahead _ => ?_⟩
    obtain ⟨us', _, rfl, hu, hc⟩ := like.of_append
    obtain _ | ⟨last, ⟨⟩⟩ := hc
    rw [List.append_assoc] at ahead
    have close' := last.kind.trans close
    obtain ⟨arg', after', reads, closed, same⟩ :=
      ih name' c' us' _ trivial hu ahead (stops_of_kind close' (by simp) _ _)
    obtain ⟨rfl, ended⟩ := Cursor.next_of_ahead closed
    refine ⟨_, _, .argLast reads close', ended, ?_, last.span⟩
    simp only [Same, Expr.Alike, Expr.mapSpanArgs] at same ⊢
    rw [same]

/-- An expression is read wherever the tokens that were taken for it are. -/
theorem Reads.again {scope : Scope} {f g : Span → Span} (hf : Span.Spread f)
    (hg : Span.Spread g) {levels least : Nat} {c c' last : Cursor} {e : Expr}
    {ts ts' rest : List Token} (h : Reads scope (.expr levels least) c (ok e) last)
    (taken : c.ahead = ts ++ last.ahead) (like : Likewise f g ts ts')
    (ahead : c'.ahead = ts' ++ rest) (stops : Stops last.ahead rest) :
    ∃ e' last', Reads scope (.expr levels least) c' (ok e') last' ∧ last'.ahead = rest ∧
      e.Alike f g e' := by
  obtain ⟨us, taken', again⟩ := h.elsewhere hf hg
  obtain rfl : ts = us := List.append_cancel_right (taken.symm.trans taken')
  exact again e.span c' ts' rest trivial like ahead stops

end Formula
