import Formula.Compilation
import Formula.Proofs.Replay

/-!
# Parsing by rules

What a parser does with a text, as a relation with a rule for each way in which it can end
(`Parses`). The relation is what `Parser.parse` computes (`parses_iff`), and like reading it
depends on nothing after the token at which it ends (`Parses.replay`).
-/

namespace Formula

open Except (ok error)

/-- What is wrong with a token after a complete expression. -/
def Token.Kind.unread : Token.Kind → Fault
  | closeParen => .unmatchedParen
  | _ => .trailingInput

theorem Token.Kind.isRefusal_unread (kind : Token.Kind) : kind.unread.isRefusal = true := by
  cases kind <;> rfl

/-- How the rest of a text is read as one expression, and the parser afterwards. -/
inductive Parses (scope : Scope) (levels : Nat) (c : Cursor) :
    Except Diagnostic Expr → Parser → Prop where
  | empty : c.next.1.isFinish = true →
      Parses scope levels c (error ⟨.emptyExpression, c.next.1.span⟩) ⟨c.peek.2, levels⟩
  | fails {d : Diagnostic} {last : Cursor} : c.next.1.isFinish = false →
      Reads scope (.expr levels 0) c.peek.2 (error d) last →
      Parses scope levels c (error d)
        ⟨last, if d.fault = .nestingTooDeep then levels - 1 else levels⟩
  | whole {e : Expr} {last : Cursor} : c.next.1.isFinish = false →
      Reads scope (.expr levels 0) c.peek.2 (ok e) last → last.next.1.isFinish = true →
      Parses scope levels c (ok e) ⟨last.next.2, levels⟩
  /-- Something follows a complete expression. -/
  | more {e : Expr} {last : Cursor} : c.next.1.isFinish = false →
      Reads scope (.expr levels 0) c.peek.2 (ok e) last → last.next.1.isFinish = false →
      Parses scope levels c (error (last.next.1.refuse last.next.1.kind.unread))
        ⟨last.next.2, levels⟩

/-- What a parser gives by the rules is what it computes. -/
theorem Parses.parse_eq {scope : Scope} {p q : Parser} {answer : Except Diagnostic Expr}
    (h : Parses scope p.levels p.cursor answer q) : p.parse scope = (answer, q) := by
  cases h with
  | empty finish => simp [Parser.parse, Cursor.fst_peek, finish]
  | fails more reads =>
    have e := Outcome.eq_error (reads_iff.mp reads)
    simp [Parser.parse, Cursor.fst_peek, more, e]
  | @whole e last more reads finish =>
    obtain ⟨_, e⟩ := Outcome.eq_ok (reads_iff.mp reads)
    simp only [Parser.parse, Cursor.fst_peek, more, e]
    cases kind : last.next.1.kind <;>
      simp_all [Token.isFinish, Token.Kind.isFinish]
  | @more e last more reads follows =>
    obtain ⟨_, e⟩ := Outcome.eq_ok (reads_iff.mp reads)
    simp only [Parser.parse, Cursor.fst_peek, more, e]
    cases kind : last.next.1.kind <;>
      simp_all [Token.isFinish, Token.Kind.isFinish, Token.Kind.unread, Token.refuse]

/-- Some rule applies to every parser. -/
theorem exists_parses (scope : Scope) (levels : Nat) (c : Cursor) :
    ∃ answer q, Parses scope levels c answer q := by
  cases finish : c.next.1.isFinish with
  | true => exact ⟨_, _, .empty finish⟩
  | false =>
    obtain ⟨_ | e, last, reads⟩ := exists_reads scope (.expr levels 0) c.peek.2
    · exact ⟨_, _, .fails finish reads⟩
    cases follows : last.next.1.isFinish with
    | true => exact ⟨_, _, .whole finish reads follows⟩
    | false => exact ⟨_, _, .more finish reads follows⟩

theorem parses_iff {scope : Scope} {p q : Parser} {answer : Except Diagnostic Expr} :
    Parses scope p.levels p.cursor answer q ↔ p.parse scope = (answer, q) := by
  refine ⟨Parses.parse_eq, fun h => ?_⟩
  obtain ⟨_, _, parses⟩ := exists_parses scope p.levels p.cursor
  cases h.symm.trans parses.parse_eq
  exact parses

/-- What is read from the start of a text on is the expression of the text. -/
theorem Parses.parse_ofString {scope : Scope} {maxLevels : Nat} {source : String}
    {answer : Except Diagnostic Expr} {q : Parser}
    (h : Parses scope maxLevels (.ofString source) answer q) :
    parse scope maxLevels source = answer :=
  congrArg Prod.fst (parses_iff.mp h)

/-- Where the cursor is after a parser has read: after the end of the text, or where the error
says. -/
def Cursor.Finishes (c : Cursor) (k : Nat) : Except Diagnostic Expr → Cursor → Prop
  | ok _, last => last = c.skip (k + 1) ∧ (c.nth k).isFinish = true
  | error d, last => ErrorAt c k d last

/-- A parser stops at some token, and one in front of tokens that are alike up to there gives
the same. -/
theorem Parses.replay {scope : Scope} {levels : Nat} {f g : Span → Span} (hf : Span.Spread f)
    (hg : Span.Spread g) {c : Cursor} {answer : Except Diagnostic Expr} {q : Parser}
    (h : Parses scope levels c answer q) :
    ∃ k, c.Finishes k answer q.cursor ∧ ∀ c', c.Agree f g k c' →
      ∃ answer' q', Parses scope levels c' answer' q' ∧ c'.Finishes k answer' q'.cursor ∧
        Similar f g (Expr.Alike f g) answer answer' := by
  cases h with
  | empty finish =>
    refine ⟨0, .left 0 _ (.inr rfl), fun c' agree => ?_⟩
    have finish' : c'.next.1.isFinish = true := by
      rwa [Token.isFinish, agree.first.kind]
    exact ⟨_, _, .empty finish', .left 0 _ (.inr rfl), .error rfl agree.first.span⟩
  | fails more reads =>
    obtain ⟨k, ends, again⟩ := reads.replay hf hg
    refine ⟨0 + k, ErrorAt.after ends (.peek c), fun c' agree => ?_⟩
    have more' : c'.next.1.isFinish = false := by
      rwa [Token.isFinish, agree.first.kind]
    obtain ⟨_, _, reads', ends', same⟩ :=
      again c'.next.1.span c'.peek.2 trivial (agree.past (.peek c) (.peek c'))
    cases same with | error fault span =>
    exact ⟨_, _, .fails more' reads', ErrorAt.after ends' (.peek c'), .error fault span⟩
  | whole more reads finish =>
    obtain ⟨k, ends, again⟩ := reads.replay hf hg
    have taken := (Cursor.Past.peek c).trans ends.1
    refine ⟨0 + k, ⟨taken.skip_eq 0, by rwa [← taken.first_eq]⟩, fun c' agree => ?_⟩
    have more' : c'.next.1.isFinish = false := by
      rwa [Token.isFinish, agree.first.kind]
    obtain ⟨_, last', reads', ends', same⟩ :=
      again c'.next.1.span c'.peek.2 trivial (agree.past (.peek c) (.peek c'))
    cases same with | ok same =>
    have taken' := (Cursor.Past.peek c').trans ends'.1
    have last := agree.ending taken taken'
    have finish' : last'.next.1.isFinish = true := by
      rwa [Token.isFinish, last.kind]
    exact ⟨_, _, .whole more' reads' finish', ⟨taken'.skip_eq 0, by rwa [← taken'.first_eq]⟩,
      .ok same⟩
  | more more reads follows =>
    obtain ⟨k, ends, again⟩ := reads.replay hf hg
    have taken := (Cursor.Past.peek c).trans ends.1
    refine ⟨0 + k, (ErrorAt.refused 0 _ (Token.Kind.isRefusal_unread _)).after taken,
      fun c' agree => ?_⟩
    have more' : c'.next.1.isFinish = false := by
      rwa [Token.isFinish, agree.first.kind]
    obtain ⟨_, last', reads', ends', same⟩ :=
      again c'.next.1.span c'.peek.2 trivial (agree.past (.peek c) (.peek c'))
    cases same with | ok same =>
    have taken' := (Cursor.Past.peek c').trans ends'.1
    have last := agree.ending taken taken'
    have follows' : last'.next.1.isFinish = false := by
      rwa [Token.isFinish, last.kind]
    refine ⟨_, _, .more more' reads' follows',
      (ErrorAt.refused 0 _ (Token.Kind.isRefusal_unread _)).after taken', ?_⟩
    rw [last.kind]
    exact last.refuse _

/-- Every parser stops at some token. -/
theorem Parses.finishes {scope : Scope} {levels : Nat} {c : Cursor}
    {answer : Except Diagnostic Expr} {q : Parser} (h : Parses scope levels c answer q) :
    ∃ k, c.Finishes k answer q.cursor := by
  obtain ⟨k, finishes, -⟩ := h.replay (f := id) (g := id) (fun _ _ => rfl) (fun _ _ => rfl)
  exact ⟨k, finishes⟩

/-- The cursor afterwards stands some tokens after the one before. -/
theorem Parses.past {scope : Scope} {levels : Nat} {c : Cursor} {answer : Except Diagnostic Expr}
    {q : Parser} (h : Parses scope levels c answer q) : ∃ k, c.Past k q.cursor := by
  obtain ⟨k, finishes⟩ := h.finishes
  cases answer with
  | ok => exact ⟨k + 1, .inl finishes.1⟩
  | error => exact ErrorAt.past finishes

/-- What is wrong with the rest of a text, if it is no expression. -/
def Parser.error? (scope : Scope) (p : Parser) : Option Diagnostic :=
  match (p.parse scope).1 with
  | ok _ => none
  | error d => some d

theorem Parser.error?_eq_some_iff {scope : Scope} {p : Parser} {d : Diagnostic} :
    p.error? scope = some d ↔ ∃ q, p.parse scope = (error d, q) := by
  unfold error?
  rcases p.parse scope with ⟨_ | _, _⟩ <;> simp

end Formula
