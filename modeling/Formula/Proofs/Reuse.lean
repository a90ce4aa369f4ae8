import Formula.Proofs.Shift
import Formula.Proofs.Transparent

/-!
# Parsers used again

A parser that has read once stands somewhere in its text, and the next reading goes on from
there. Nothing of what was read before matters for it but how many readings failed for their
depth: each of them takes one level from all that follow (`parser_reuse`).
-/

namespace Formula

open Except (ok error)
open Text (width)

namespace Parser

variable (scope : Scope) (p : Parser)

/-- The parser after a number of readings. -/
def after : Nat → Parser
  | 0 => p
  | n + 1 => ((after n).parse scope).2

/-- Whether the next reading fails for its depth. -/
def tooDeep : Bool :=
  (p.error? scope).any fun d => d.fault = .nestingTooDeep

/-- How many of the first readings fail for their depth. -/
def lost (n : Nat) : Nat :=
  (List.range n).countP fun i => (p.after scope i).tooDeep scope

/-- The levels that are opened and closed in the first readings. -/
def log (n : Nat) : List Move :=
  (List.range n).flatMap fun i => (p.after scope i).moves scope

theorem lost_succ (n : Nat) :
    p.lost scope (n + 1) = p.lost scope n + if (p.after scope n).tooDeep scope then 1 else 0 := by
  simp [lost, List.range_succ, List.countP_append, List.countP_singleton]

theorem log_succ (n : Nat) :
    p.log scope (n + 1) = p.log scope n ++ (p.after scope n).moves scope := by
  simp [log, List.range_succ]

end Parser

/-- A reading leaves a balanced log and all levels, or its log is cut and one level is lost. -/
theorem Parses.logged {scope : Scope} {p q : Parser} {answer : Except Diagnostic Expr}
    (h : Parses scope p.levels p.cursor answer q) (plain : p.cursor.Plain) :
    (Balanced p.levels (p.moves scope) ∧ q.levels = p.levels ∧ p.tooDeep scope = false) ∨
      (Cut p.levels (p.moves scope) ∧ q.levels = p.levels - 1 ∧ p.tooDeep scope = true) := by
  have parsed := h.parse_eq
  simp only [Parser.tooDeep, Parser.error?, parsed]
  cases h with
  | empty finish =>
    rw [Parser.moves_of_finish finish]
    exact .inl ⟨.nil _, by simp⟩
  | @fails d last more reads =>
    rw [Parser.moves_of_more more]
    obtain ⟨balanced, fault⟩ | ⟨cut, deep, -⟩ := reads.logged
    · have shallow := fault (plain.past (.peek _))
      exact .inl ⟨balanced, by simp [shallow], by simp [shallow]⟩
    · exact .inr ⟨cut, by simp [deep], by simp [deep]⟩
  | whole more reads _ =>
    rw [Parser.moves_of_more more]
    exact .inl ⟨reads.logged, by simp⟩
  | @more e last more reads _ =>
    rw [Parser.moves_of_more more]
    obtain ⟨k, taken, -⟩ := reads.ends
    have shallow := ((plain.past (.peek _)).past taken).refuse
      (Token.Kind.isRefusal_unread last.next.1.kind)
    exact .inl ⟨reads.logged, by simp [shallow]⟩

/-- What one reading does to the count of the open levels, with some lost before it. -/
theorem Parses.counted {scope : Scope} {p q : Parser} {answer : Except Diagnostic Expr}
    (h : Parses scope p.levels p.cursor answer q) (plain : p.cursor.Plain) {limit lost : Nat}
    (left : p.levels = limit - lost) :
    Counted limit lost (p.moves scope) ∧
      height (p.moves scope) = (if p.tooDeep scope then 1 else 0 : Nat) ∧
      q.levels = limit - (lost + if p.tooDeep scope then 1 else 0) := by
  have free : (p.levels : Int) = max ((limit : Int) - lost) 0 := by omega
  obtain ⟨balanced, kept, deep⟩ | ⟨cut, less, deep⟩ := h.logged plain
  · exact ⟨balanced.counted (Int.natCast_nonneg lost) free, by simp [deep, balanced.height_eq],
      by simp [deep, kept, left]⟩
  · refine ⟨cut.counted (Int.natCast_nonneg lost) free, by simp [deep, cut.height_eq], ?_⟩
    simp only [deep, if_true]
    omega

/-- What is known of a parser after some readings of a text: where it stands, and how many levels
it has left. -/
structure Reached (scope : Scope) (source : String) (limit n : Nat) : Prop where
  past : ∃ k, (Cursor.ofString source).Past k
    ((Parser.ofString source limit).after scope n).cursor
  levels : ((Parser.ofString source limit).after scope n).levels =
    limit - (Parser.ofString source limit).lost scope n
  counted : Counted limit 0 ((Parser.ofString source limit).log scope n)
  height : height ((Parser.ofString source limit).log scope n) =
    (Parser.ofString source limit).lost scope n

/-- Every reading leads on from where the one before stopped. -/
theorem reached (scope : Scope) (source : String) (limit n : Nat) :
    Reached scope source limit n := by
  induction n with
  | zero => exact ⟨⟨0, .zero _⟩, rfl, trivial, rfl⟩
  | succ n ih =>
    obtain ⟨⟨k, past⟩, levels, counted, height⟩ := ih
    obtain ⟨answer, q, parses⟩ := exists_parses scope
      ((Parser.ofString source limit).after scope n).levels
      ((Parser.ofString source limit).after scope n).cursor
    have next : (Parser.ofString source limit).after scope (n + 1) = q := by
      rw [Parser.after, parses.parse_eq]
    obtain ⟨m, stands⟩ := parses.past
    obtain ⟨onward, higher, fewer⟩ := parses.counted ((plain_ofString source).past past) levels
    refine ⟨⟨k + m, by rw [next]; exact past.trans stands⟩, ?_, ?_, ?_⟩
    · rw [next, fewer, Parser.lost_succ]
    · rw [Parser.log_succ, counted_append, height, Int.zero_add]
      exact ⟨counted, onward⟩
    · rw [Parser.log_succ, height_append, height, higher, Parser.lost_succ, Int.natCast_add]

/-! ## What is not read yet -/

/-- The same diagnostic about a text after more bytes. -/
def Diagnostic.shift (bytes : Nat) (d : Diagnostic) : Diagnostic :=
  { d with span := d.span.shift bytes }

/-- What a text is read as after more bytes. -/
def shifted (bytes : Nat) : Except Diagnostic Expr → Except Diagnostic Expr
  | ok e => ok (e.mapSpan (Span.shift bytes))
  | error d => error (d.shift bytes)

theorem Similar.eq_shifted {bytes : Nat} {a b : Except Diagnostic Expr}
    (h : Similar id (Span.shift bytes) (Expr.Alike id (Span.shift bytes)) a b) :
    a = shifted bytes b := by
  cases h with
  | @ok e _ same =>
    rw [Expr.Alike, Expr.mapSpan_id] at same
    rw [same, shifted]
  | @error d d' fault span =>
    rw [shifted, Diagnostic.shift, fault, ← span]
    rfl

/-- A parser somewhere in a text reads what is left of it as if that were the text. -/
theorem parse_rest (scope : Scope) {source : String} {p : Parser} {k : Nat}
    (past : (Cursor.ofString source).Past k p.cursor) :
    ∃ before after, source.toList = before ++ after ∧
      p.cursor.ahead = (tokens (String.ofList after)).map (Token.shift (width before)) ∧
      (p.parse scope).1 =
        shifted (width before) (parse scope p.levels (String.ofList after)) := by
  obtain ⟨before, after, split, tails⟩ := Cursor.tails_skip source k
  refine ⟨before, after, split, past.ahead_eq.trans tails.ahead, ?_⟩
  obtain ⟨answer, q, parses⟩ := exists_parses scope p.levels p.cursor
  obtain ⟨j, -, again⟩ := parses.replay (f := id) (fun _ _ => rfl)
    (Span.spread_shift (width before))
  have agree := tails.agree (k := j)
  obtain ⟨answer', q', parses', -, same⟩ :=
    again (Cursor.ofString (String.ofList after)) fun i hi => by
      rw [past.nth_eq, ← Cursor.nth_skip]
      exact agree i hi
  have whole := Parses.parse_eq (p := .ofString (String.ofList after) p.levels) parses'
  rw [parses.parse_eq, parse, whole]
  exact same.eq_shifted

/-- Whether the token of an error is left to be read again, after some tokens and before those
that follow: there is no level for it, it is the end of an empty text, or it starts an argument
too many. An argument starts after a comma, and the first one with any other token than the
closing parenthesis. -/
def Diagnostic.Leaves (d : Diagnostic) (before rest : List Token) : Prop :=
  d.fault = .nestingTooDeep ∨ d.fault = .emptyExpression ∨
    d.fault = .argumentCount ∧
      ((∃ token ∈ before.getLast?, token.kind = .comma) ∨
        ∀ token ∈ rest.head?, token.kind ≠ .closeParen)

theorem Diagnostic.not_leaves {d : Diagnostic} {before rest : List Token}
    (h : d.fault.isRefusal = true) : ¬ d.Leaves before rest := by
  rintro (fault | fault | ⟨fault, -⟩) <;> simp [fault, Fault.isRefusal] at h

/-- An error leaves its token or takes it. -/
theorem ErrorAt.ahead_eq {c last : Cursor} {k : Nat} {d : Diagnostic} (h : ErrorAt c k d last)
    (settles : c.Settles) (plain : c.Plain) :
    (d.Leaves (c.ahead.take k) (c.ahead.drop k) → last.ahead = c.ahead.drop k) ∧
      (¬ d.Leaves (c.ahead.take k) (c.ahead.drop k) → last.ahead = (c.ahead.drop k).tail) := by
  cases h with
  | left _ fault cause =>
    refine ⟨fun _ => by rw [Cursor.ahead_peek, settles], fun leaves => absurd ?_ leaves⟩
    exact cause.imp id .inl
  | surplus k start =>
    refine ⟨fun _ => by rw [Cursor.ahead_peek, settles], fun leaves => absurd ?_ leaves⟩
    refine .inr (.inr ⟨rfl, start.imp (fun comma => ⟨c.nth k, ?_, comma⟩) fun other => ?_⟩)
    · rw [List.getLast?_take]
      simp [settles.getElem?_of_kind comma rfl]
    · intro token first
      rw [List.head?_drop, settles.getElem?] at first
      split at first
      · cases first
      · cases first
        exact other
  | missing k part close =>
    refine ⟨fun leaves => absurd leaves ?_, fun _ => by rw [settles, List.tail_drop]⟩
    have first := settles.getElem?_of_kind close rfl
    rintro (fault | fault | ⟨-, ⟨token, last, comma⟩ | start⟩)
    · cases fault
    · cases fault
    · have before : k < c.ahead.length :=
        Nat.lt_of_succ_lt (List.getElem?_eq_some_iff.mp first).1
      rw [List.getLast?_take, if_neg k.succ_ne_zero, Nat.add_sub_cancel,
        List.getElem?_eq_getElem before, ← Cursor.nth_getElem before] at last
      cases last
      exact part comma
    · exact start (c.nth (k + 1)) (by rw [List.head?_drop, first]; rfl) close
  | refused _ fault refusal =>
    have kept := (plain.past (.inl rfl : c.Past k (c.skip k))).isRefusal_refuse refusal
    exact ⟨fun leaves => absurd leaves (Diagnostic.not_leaves kept),
      fun _ => by rw [settles, List.tail_drop]⟩

/-- What is left of a text after it was read, or after an error in it. -/
theorem Parses.left {scope : Scope} {levels : Nat} {c : Cursor} {answer : Except Diagnostic Expr}
    {q : Parser} (h : Parses scope levels c answer q) (settles : c.Settles) (plain : c.Plain)
    {size : Nat} (ends : c.EndsAt size) :
    match answer with
    | ok _ => q.cursor.ahead = []
    | error d => ∃ before rest, c.ahead = before ++ rest ∧ d.span = spanAt size rest ∧
      (d.Leaves before rest → q.cursor.ahead = rest) ∧
      (¬ d.Leaves before rest → q.cursor.ahead = rest.tail) := by
  obtain ⟨k, finishes⟩ := h.finishes
  cases answer with
  | ok e =>
    obtain ⟨after, finish⟩ := finishes
    have last : c.ahead.drop k = [] := by rw [← settles, Cursor.ahead_eq_nil_iff]; exact finish
    rw [after, settles, ← List.tail_drop, last, List.tail_nil]
  | error d =>
    refine ⟨_, _, (List.take_append_drop k c.ahead).symm, ?_,
      ErrorAt.ahead_eq finishes settles plain⟩
    rw [ErrorAt.span finishes, ← settles]
    exact (ends.past (.inl rfl)).span

/-- A parser that has read any number of times is told from a new one by one number, how many of
the readings failed for their depth. So many levels stay open, and what is left of the text is
read like a text with so many levels fewer. A reading that gives an expression leaves nothing,
and one that fails leaves what comes after the token of the error, and that token too if it was
only looked at. -/
theorem parser_reuse (scope : Scope) (source : String) (limit n : Nat) :
    let start := Parser.ofString source limit
    let p := start.after scope n
    (Counted limit 0 (start.log scope n) ∧ height (start.log scope n) = start.lost scope n ∧
      p.levels = limit - start.lost scope n) ∧
    (∃ before after, source.toList = before ++ after ∧
      p.cursor.ahead = (tokens (String.ofList after)).map (Token.shift (width before)) ∧
      (p.parse scope).1 = shifted (width before)
        (parse scope (limit - start.lost scope n) (String.ofList after))) ∧
    match p.parse scope with
    | (ok _, q) => q.cursor.ahead = []
    | (error d, q) => ∃ before rest, p.cursor.ahead = before ++ rest ∧
      d.span = spanAt source.utf8ByteSize rest ∧
      (d.Leaves before rest → q.cursor.ahead = rest) ∧
      (¬ d.Leaves before rest → q.cursor.ahead = rest.tail) := by
  intro start p
  obtain ⟨⟨k, past⟩, levels, counted, height⟩ := reached scope source limit n
  refine ⟨⟨counted, height, levels⟩, ?_, ?_⟩
  · rw [← levels]
    exact parse_rest scope past
  · obtain ⟨answer, q, parses⟩ := exists_parses scope p.levels p.cursor
    have ends : p.cursor.EndsAt source.utf8ByteSize := by
      rw [← Cursor.size_ofString]
      exact (Cursor.endsAt_size rfl).past past
    have left := parses.left (Cursor.settles_past rfl past) ((plain_ofString source).past past) ends
    rw [parses.parse_eq]
    cases answer <;> exact left

-- The first reading fails for its depth, and so do all from the fourth on.
example : (List.range 7).map ((Parser.ofString "((1)) + (2" 2).lost .empty) =
    [0, 1, 1, 1, 2, 3, 4] := by
  decide +kernel

end Formula
