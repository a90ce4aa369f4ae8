import Formula.Proofs.Elsewhere
import Formula.Proofs.Parts
import Formula.Proofs.Stretch
import Formula.Proofs.Transparent

/-!
# Every part is the expression of its text

What stands at the span of a part of an expression is a text of its own, which stands for that
part (`parse_part`). Every part was read as an expression somewhere (`Reads.parts`), and reading
does not see where it happens: where the text ends after the part, the operators in it need not
bind more tightly than those around it, for there are none (`Reads.loosens`).
-/

namespace Formula

open Except (ok error)
open Text (slice?)

/-! ## Parts are read -/

/-- An expression is read somewhere behind a cursor, with no more than some levels. -/
def ReadWithin (scope : Scope) (levels : Nat) (c : Cursor) (e : Expr) : Prop :=
  ∃ own least middle last, own ≤ levels ∧ Reads scope (.expr own least) middle (ok e) last ∧
    middle.ahead <:+ c.ahead

namespace ReadWithin

variable {scope : Scope} {levels levels' least : Nat} {c middle last : Cursor} {e : Expr}

theorem expr (h : Reads scope (.expr levels least) c (ok e) last) : ReadWithin scope levels c e :=
  ⟨levels, least, c, last, Nat.le_refl _, h, List.suffix_rfl⟩

/-- An operand alone is an expression. -/
theorem operand (h : Reads scope (.operand levels) c (ok e) last) :
    ReadWithin scope (levels + 1) c e :=
  expr (.expr h (.stop fun op _ => op.leftPower_lt))

theorem behind (h : ReadWithin scope levels middle e) (suffix : middle.ahead <:+ c.ahead)
    (le : levels ≤ levels') : ReadWithin scope levels' c e := by
  obtain ⟨own, least, start, last, within, reads, later⟩ := h
  exact ⟨own, least, start, last, Nat.le_trans within le, reads, later.trans suffix⟩

theorem next {kind : Token.Kind} (h : ReadWithin scope levels c.next.2 e)
    (hk : c.next.1.kind = kind) (more : kind.isFinish = false) : ReadWithin scope levels c e := by
  refine h.behind ?_ (Nat.le_refl _)
  rw [Cursor.ahead_of_kind hk more]
  exact List.suffix_cons _ _

end ReadWithin

/-- What comes after a value was ahead before. -/
theorem Reads.suffix {scope : Scope} {phrase : Phrase} {c last : Cursor} {value : phrase.Answer}
    (h : Reads scope phrase c (ok value) last) : last.ahead <:+ c.ahead := by
  obtain ⟨ts, ahead, -⟩ := h.takes
  exact ⟨ts, ahead.symm⟩

namespace Phrase

/-- The expressions in a value that are read for it. -/
def children : (phrase : Phrase) → phrase.Answer → List Expr
  | expr _ _, e => [e]
  | operand _, e => e.children
  | steps _ _, run => run.map Step.operand
  | call _ _ _, e => e.children
  | args _ _ _, (list, _) => list

/-- What is said of an answer: the parts of a value are read. -/
def Parts (scope : Scope) (phrase : Phrase) (c : Cursor) : Except Diagnostic phrase.Answer → Prop
  | error _ => True
  | ok value => ∀ child ∈ phrase.children value, ∀ part : Expr, part.PartOf child →
    ReadWithin scope phrase.levels c part

end Phrase

open Phrase

/-- Every part of a value is read as an expression. -/
theorem Reads.parts {scope : Scope} {phrase : Phrase} {c last : Cursor}
    {answer : Except Diagnostic phrase.Answer} (h : Reads scope phrase c answer last) :
    phrase.Parts scope c answer := by
  induction h with
  | tooDeep | exprFails | unbound | parenFails | parenOpen | closed | noOperand | stepFails
  | callUnopened | callMissing | callSurplus | callFails | callTooFew | argFails | argSurplus
  | argOpen => trivial
  | @expr levels _ _ _ _ first answer read₁ read₂ ih₁ ih₂ =>
    cases answer with
    | error => trivial
    | ok steps =>
      refine List.forall_mem_singleton.mpr fun part inside => ?_
      obtain rfl | inside | ⟨step, hs, inside⟩ := inside.of_chain
      · exact .expr (.expr read₁ read₂)
      · cases inside with
        | self => exact .operand read₁
        | child hc inside =>
          exact (ih₁ _ hc _ inside).behind List.suffix_rfl (Nat.le_succ levels)
      · exact (ih₂ _ (List.mem_map_of_mem hs) _ inside).behind read₁.suffix (Nat.le_succ levels)
  | number | var | constant | callEmpty => exact List.forall_mem_nil _
  | @function _ _ _ _ answer kind _ _ ih =>
    cases answer with
    | error => trivial
    | ok => exact fun child hc part inside => (ih child hc part inside).next kind rfl
  | @paren _ c closing inner kind _ _ ih =>
    intro child hc part inside
    simp only [children, Expr.children_withSpan] at hc
    exact (ih inner (List.mem_singleton_self _) part (.child hc inside)).next kind rfl
  | @minus _ _ _ answer kind _ ih =>
    cases answer with
    | error => trivial
    | ok => exact fun child hc part inside => (ih child hc part inside).next kind rfl
  | @plus _ _ _ answer kind _ ih =>
    cases answer with
    | error => trivial
    | ok operand =>
      intro child hc part inside
      simp only [children, Expr.children_withSpan] at hc
      exact (ih operand (List.mem_singleton_self _) part (.child hc inside)).next kind rfl
  | stop => exact List.forall_mem_nil _
  | @step levels _ _ _ _ _ _ answer kind _ read _ ih₁ ih₂ =>
    cases answer with
    | error => trivial
    | ok steps =>
      refine List.forall_mem_cons.mpr ⟨fun part inside => ?_, fun child hc part inside => ?_⟩
      · exact (ih₁ _ (List.mem_singleton_self _) part inside).next kind rfl
      · exact ((ih₂ child hc part inside).behind read.suffix (Nat.le_refl levels)).next kind rfl
  | @call levels _ _ _ c _ _ opening _ _ _ _ ih =>
    intro child hc part inside
    have later : c.next.2.peek.2.ahead <:+ c.next.2.ahead := ⟨[], Cursor.ahead_peek _⟩
    exact ((ih child hc part inside).behind later (Nat.le_refl levels)).next opening rfl
  | @arg levels _ _ _ after _ arg answer read comma _ _ ih₁ ih₂ =>
    cases answer with
    | error => trivial
    | ok rest =>
      refine List.forall_mem_cons.mpr ⟨fun part inside => ?_, fun child hc part inside => ?_⟩
      · exact ih₁ arg (List.mem_singleton_self _) part inside
      · exact ((ih₂ child hc part inside).next comma rfl).behind read.suffix (Nat.le_refl levels)
  | argLast _ _ ih => exact ih

/-! ## The text of a part -/

/-- What is said of an answer: if nothing comes after a value, the operators in it may bind as
loosely as any. -/
def Phrase.Loosens (scope : Scope) (c last : Cursor) :
    (phrase : Phrase) → Except Diagnostic phrase.Answer → Prop
  | expr levels _, ok e => last.ahead = [] → Reads scope (.expr levels 0) c (ok e) last
  | steps levels _, ok run => last.ahead = [] → Reads scope (.steps levels 0) c (ok run) last
  | _, _ => True

theorem Reads.loosens {scope : Scope} {phrase : Phrase} {c last : Cursor}
    {answer : Except Diagnostic phrase.Answer} (h : Reads scope phrase c answer last) :
    phrase.Loosens scope c last answer := by
  induction h with
  | @expr _ _ _ _ _ _ answer read _ _ ih =>
    cases answer with
    | error => trivial
    | ok => exact fun ended => .expr read (ih ended)
  | @stop _ _ c _ =>
    intro ended
    rw [Cursor.ahead_peek] at ended
    refine .stop (below_ahead_iff.mp ?_)
    rw [ended]
    exact stops_nil [] 0 (by simp [Below])
  | @step _ _ _ _ _ _ _ answer kind _ read _ _ ih =>
    cases answer with
    | error => trivial
    | ok => exact fun ended => .step kind (Nat.zero_le _) read (ih ended)
  | _ => trivial

/-- The text of an expression that is read stands for it, wherever it is read. -/
theorem Reads.parse_slice {scope : Scope} {levels least : Nat} {source : String} {c last : Cursor}
    {e : Expr} (h : Reads scope (.expr levels least) c (ok e) last)
    (behind : c.ahead <:+ tokens source) :
    ∃ text e', slice? source.toList e.span = some text ∧
      parse scope levels (.ofList text) = ok e' ∧ e'.mapSpan (Span.shift e.span.start) = e := by
  obtain ⟨before, split⟩ := behind
  obtain ⟨ts, taken, start, stop⟩ := h.takes
  rw [taken] at split
  obtain ⟨text, found, same⟩ := exists_slice split.symm start stop
  have like := same ▸ (likewise_shift e.span.start (tokens (.ofList text))).1
  have ahead : (Cursor.ofString (.ofList text)).peek.2.ahead = tokens (.ofList text) ++ [] := by
    rw [Cursor.ahead_peek, List.append_nil]
    rfl
  obtain ⟨e', last', reads, ended, alike⟩ := h.again (fun _ _ => rfl) (Span.spread_shift _) taken
    like ahead (stops_nil _)
  have some : tokens (.ofList text) ≠ [] := by
    rintro none
    rw [← same, none] at start
    cases start
  refine ⟨text, e', found, Parser.parse_eq_ok_iff.mpr ⟨some, last', reads.loosens ended, ended⟩, ?_⟩
  rw [← alike, Expr.mapSpan_id]

/-- Every part of the expression of a text is what the text at its span stands for. -/
theorem parse_part {scope : Scope} {maxLevels : Nat} {source : String} {e part : Expr}
    (h : parse scope maxLevels source = ok e) (inside : part.PartOf e) :
    ∃ text part', slice? source.toList part.span = some text ∧
      parse scope maxLevels (.ofList text) = ok part' ∧
      part'.mapSpan (Span.shift part.span.start) = part := by
  obtain ⟨-, last, reads, -⟩ := Parser.parse_eq_ok_iff.mp h
  obtain ⟨levels, least, c, last, within, reads, behind⟩ :=
    reads.parts e (List.mem_singleton_self e) part inside
  rw [Cursor.ahead_peek] at behind
  obtain ⟨text, part', found, parsed, same⟩ := reads.parse_slice behind
  exact ⟨text, part', found, parse_mono parsed within, same⟩

/-- The base of the power is the text in parentheses, which belong to it. -/
theorem parse_part_base :
    ∃ e part part', part.PartOf e ∧ part.span = ⟨4, 12⟩ ∧
      parse ((Scope.empty.bind "x" (.cell "a")).bind "y" (.cell "b")) 64 "2 * (+x - y)^2" = ok e ∧
      parse ((Scope.empty.bind "x" (.cell "a")).bind "y" (.cell "b")) 64 "(+x - y)" = ok part' ∧
      part'.mapSpan (Span.shift 4) = part := by
  let scope : Scope := (Scope.empty.bind "x" (.cell "a")).bind "y" (.cell "b")
  have spans : (parse scope 64 "2 * (+x - y)^2").toOption.map
      (fun e => (e.children.flatMap Expr.children).map Expr.span) =
        some [⟨4, 12⟩, ⟨13, 14⟩] := by decide +kernel
  cases parsed : parse scope 64 "2 * (+x - y)^2" with
  | error =>
    rw [parsed] at spans
    cases spans
  | ok e =>
    rw [parsed] at spans
    have spans : (e.children.flatMap Expr.children).map Expr.span = _ := Option.some.inj spans
    have base : ⟨4, 12⟩ ∈ (e.children.flatMap Expr.children).map Expr.span := by
      rw [spans]
      exact List.mem_cons_self
    obtain ⟨part, hp, span⟩ := List.mem_map.mp base
    obtain ⟨child, hc, hp⟩ := List.mem_flatMap.mp hp
    have inside : part.PartOf e := .child hc (.child hp .self)
    obtain ⟨text, part', found, parsed', same⟩ := parse_part parsed inside
    have here : slice? "2 * (+x - y)^2".toList ⟨4, 12⟩ = some "(+x - y)".toList := by decide +kernel
    rw [span, here] at found
    obtain rfl := Option.some.inj found
    rw [String.ofList_toList] at parsed'
    rw [span] at same
    exact ⟨e, part, part', inside, span, rfl, parsed', same⟩

end Formula
