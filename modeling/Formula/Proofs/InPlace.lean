import Formula.Proofs.Nested
import Formula.Proofs.Parts
import Formula.Proofs.Spacing

/-!
# Every part in its place

What an expression is put together from are its marks (`Expr.marks`): the sign and the operand of
a negation, the operands of a run and the operators between them, and the arguments of a call.
In the expression of a text, and in what folding leaves of it, every part goes from the start of a
token to the end of one, and its marks stand in it one after the other (`parse_in_place`). Folding
leaves out the parentheses around what it computes, so parts become shorter, but never longer than
what they stand in.
-/

namespace Formula

open Except (ok error)
open Formula.Span (Row)

namespace Expr

/-- The spans of what an expression is put together from, in the order of the text. -/
def marks : Expr → List Span
  | literal _ _ => []
  | var _ _ _ => []
  | neg _ sign operand => [sign, operand.span]
  | run _ first steps => first.span :: steps.flatMap Step.spans
  | call _ _ args => args.map span

/-- An expression goes from the start of a token to the end of one, and what it is put together
from stands in it, one after the other. -/
structure InPlace (source : String) (e : Expr) : Prop where
  ends : e.span.OfTokens source
  some : e.span.start < e.span.stop
  children : ∀ child ∈ e.children,
    e.span.start ≤ child.span.start ∧ child.span.stop ≤ e.span.stop
  marks : ∀ mark ∈ e.marks, mark.OfTokens source ∧ e.span.start ≤ mark.start ∧
    mark.start < mark.stop ∧ mark.stop ≤ e.span.stop
  apart : e.marks.Pairwise fun a b => a.stop ≤ b.start

variable {e child : Expr} {P : Span → Prop}

/-- Every child is one of the things an expression is put together from. -/
theorem span_mem_marks (h : child ∈ e.children) : child.span ∈ e.marks := by
  cases e with
  | literal | var => cases h
  | neg _ _ operand =>
    obtain rfl := List.mem_singleton.mp h
    exact List.mem_cons_of_mem _ List.mem_cons_self
  | run _ first steps =>
    rcases List.mem_cons.mp h with rfl | h
    · exact List.mem_cons_self
    · obtain ⟨step, hs, rfl⟩ := List.mem_map.mp h
      have own : step.operand.span ∈ step.spans := List.mem_cons_of_mem _ List.mem_cons_self
      exact List.mem_cons_of_mem _ (List.mem_flatMap.mpr ⟨step, hs, own⟩)
  | call => exact List.mem_map_of_mem h

namespace Spans

theorem children (h : e.Spans P) : ∀ child ∈ e.children, child.Spans P := by
  cases h with
  | literal | var => exact List.forall_mem_nil _
  | neg _ _ operand => exact List.forall_mem_singleton.mpr operand
  | run _ first _ operands =>
    exact List.forall_mem_cons.mpr ⟨first, List.forall_mem_map.mpr operands⟩
  | call _ args => exact args

theorem marks (h : e.Spans P) : ∀ mark ∈ e.marks, P mark := by
  cases h with
  | literal | var => exact List.forall_mem_nil _
  | neg _ sign operand =>
    exact List.forall_mem_cons.mpr ⟨sign, List.forall_mem_singleton.mpr operand.span⟩
  | run _ first steps operands =>
    refine List.forall_mem_cons.mpr ⟨first.span, List.forall_mem_flatMap.mpr fun step hs => ?_⟩
    have operand := List.forall_mem_singleton.mpr (operands step hs).span
    exact List.forall_mem_cons.mpr ⟨steps step hs, operand⟩
  | call _ args => exact List.forall_mem_map.mpr fun arg ha => (args arg ha).span

end Spans

namespace Nested

theorem children (h : e.Nested) : ∀ child ∈ e.children, child.Nested := by
  cases h with
  | literal | var => exact List.forall_mem_nil _
  | neg _ operand => exact List.forall_mem_singleton.mpr operand
  | run _ first operands =>
    exact List.forall_mem_cons.mpr ⟨first, List.forall_mem_map.mpr operands⟩
  | call _ _ args => exact args

theorem marks (h : e.Nested) : Row e.span.start e.marks e.span.stop := by
  cases h with
  | literal _ size | var _ _ size => exact Nat.le_of_lt size
  | neg row | run row | call _ row => exact row

/-- The parts of an expression are in place if its spans are stretches of tokens and stand inside
each other. -/
theorem inPlace {source : String} {part : Expr} (h : e.Nested)
    (spans : e.Spans (Span.OfTokens source)) (inside : part.PartOf e) : part.InPlace source := by
  have nested : part.Nested := inside.inherit (fun _ => Nested.children) h
  have spans : part.Spans (Span.OfTokens source) := inside.inherit (fun _ => Spans.children) spans
  have row := nested.marks
  refine ⟨spans.span, nested.lt, fun child hc => ?_, fun mark hm => ?_, row.apart⟩
  · obtain ⟨start, -, stop⟩ := row.inside _ (span_mem_marks hc)
    exact ⟨start, stop⟩
  · exact ⟨spans.marks mark hm, row.inside mark hm⟩

end Nested

end Expr

/-- Every part of the expression of a text is in its place, every part of what folding leaves of
it is so too, and that stands inside the expression it was. -/
theorem parse_in_place {scope : Scope} {maxLevels : Nat} {source : String} {e : Expr}
    (h : parse scope maxLevels source = ok e) :
    (∀ part : Expr, part.PartOf e → part.InPlace source) ∧
      (∀ part : Expr, part.PartOf e.fold → part.InPlace source) ∧
      e.span.start ≤ e.fold.span.start ∧ e.fold.span.stop ≤ e.span.stop := by
  have nested := nested_of_parse h
  have spans := ofTokens_of_parse h
  have folded := Expr.Fits.fold nested
  exact ⟨fun _ => nested.inPlace spans,
    fun _ => folded.nested.inPlace (spans.fold fun _ _ => .through), folded.start, folded.stop⟩

/-- The sum in parentheses is computed, and the text that is left starts after the parenthesis. -/
theorem parse_in_place_parens :
    ∃ e, parse (Scope.empty.bind "x" (.cell "a")) 64 "(1 + 2) * -x" = ok e ∧
      e.span = ⟨0, 12⟩ ∧ e.fold.span = ⟨1, 12⟩ ∧
      (∀ part : Expr, part.PartOf e → part.InPlace "(1 + 2) * -x") ∧
      (∀ part : Expr, part.PartOf e.fold → part.InPlace "(1 + 2) * -x") := by
  have spans : (parse (Scope.empty.bind "x" (.cell "a")) 64 "(1 + 2) * -x").toOption.map
      (fun e => (e.span, e.fold.span)) = some (⟨0, 12⟩, ⟨1, 12⟩) := by decide +kernel
  cases parsed : parse (Scope.empty.bind "x" (.cell "a")) 64 "(1 + 2) * -x" with
  | error =>
    rw [parsed] at spans
    cases spans
  | ok e =>
    rw [parsed] at spans
    obtain ⟨whole, folded⟩ := Prod.mk.inj (Option.some.inj spans)
    obtain ⟨parts, parts', -⟩ := parse_in_place parsed
    exact ⟨e, rfl, whole, folded, parts, parts'⟩

end Formula
