import Formula.Compilation
import Formula.Proofs.Replay

/-!
# Programs of expressions that differ in where they stand

Where an expression stands in its text makes no difference to what is laid out for it. Spans
can be replaced before constants are folded or afterwards (`Expr.mapSpan_fold`), and before
instructions are laid out or afterwards (`Expr.instructions_mapSpan`). So expressions that are
alike have the same program, or none of them has one for the same reason
(`Program.ofExpr_similar`).
-/

namespace Formula

open Except (ok error)

/-- The same instruction for another stretch of text. -/
def Placed.mapSpan (f : Span → Span) (placed : Placed) : Placed :=
  ⟨f placed.span, placed.instr⟩

namespace Expr

variable {f g : Span → Span}

/-! ## Folding -/

theorem literal?_mapSpan (f : Span → Span) (e : Expr) : (e.mapSpan f).literal? = e.literal? := by
  cases e <;> rfl

theorem mapSpan_negate (h : Span.Spread f) (sign : Span) (operand : Expr) :
    (negate sign operand).mapSpan f = negate (f sign) (operand.mapSpan f) := by
  cases operand <;> simp [negate, mapSpan, span, h sign]

theorem mapSpan_combine (h : Span.Spread f) (first : Expr) (steps : List (Step Expr)) :
    (combine first steps).mapSpan f = combine (first.mapSpan f) (mapSpanSteps f steps) := by
  induction steps generalizing first with
  | nil => rfl
  | cons step rest ih =>
    rw [combine, mapSpanSteps, combine, literal?_mapSpan, literal?_mapSpan]
    split
    · rw [ih, mapSpan, h, span_mapSpan, span_mapSpan]
    · rw [mapSpan_chain h]
      rfl

theorem literals?_mapSpanArgs (f : Span → Span) (args : List Expr) :
    literals? (mapSpanArgs f args) = literals? args := by
  induction args with
  | nil => rfl
  | cons arg rest ih => rw [mapSpanArgs, literals?, literals?, literal?_mapSpan, ih]

theorem mapSpan_apply (f : Span → Span) (span : Span) (func : Func) (args : List Expr) :
    (apply span func args).mapSpan f = apply (f span) func (mapSpanArgs f args) := by
  rw [apply, apply, literals?_mapSpanArgs]
  split <;> rfl

/-- Folding does not look at spans. -/
theorem mapSpan_fold (h : Span.Spread f) (e : Expr) : e.fold.mapSpan f = (e.mapSpan f).fold := by
  induction e using Expr.induction with
  | literal | var => rfl
  | neg _ sign operand ih => rw [fold, mapSpan_negate h, ih, mapSpan, fold]
  | run _ first steps ih ihs =>
    have operands : mapSpanSteps f (foldSteps steps) = foldSteps (mapSpanSteps f steps) := by
      simp only [mapSpanSteps_eq_map, foldSteps_eq_map, List.map_map]
      exact List.map_congr_left fun step hs => by simp [ihs step hs]
    rw [fold, mapSpan_combine h, ih, operands, mapSpan, fold]
  | call span func args ih =>
    have folded : mapSpanArgs f (foldArgs args) = foldArgs (mapSpanArgs f args) := by
      simp only [mapSpanArgs_eq_map, foldArgs_eq_map, List.map_map]
      exact List.map_congr_left ih
    rw [fold, mapSpan_apply, folded, mapSpan, fold]

/-! ## Laying out -/

theorem stepInstructions_mapSpan {steps : List (Step Expr)}
    (h : ∀ step ∈ steps, (step.operand.mapSpan f).instructions =
      step.operand.instructions.map (Placed.mapSpan f)) :
    stepInstructions (mapSpanSteps f steps) =
      (stepInstructions steps).map (Placed.mapSpan f) := by
  induction steps with
  | nil => rfl
  | cons step rest ih =>
    obtain ⟨here, later⟩ := List.forall_mem_cons.mp h
    simp only [mapSpanSteps, stepInstructions, List.map_append, List.map_cons, here, ih later]
    rfl

theorem argInstructions_mapSpan {args : List Expr}
    (h : ∀ arg ∈ args,
      (arg.mapSpan f).instructions = arg.instructions.map (Placed.mapSpan f)) :
    argInstructions (mapSpanArgs f args) = (argInstructions args).map (Placed.mapSpan f) := by
  induction args with
  | nil => rfl
  | cons arg rest ih =>
    obtain ⟨here, later⟩ := List.forall_mem_cons.mp h
    simp only [mapSpanArgs, argInstructions, List.map_append, here, ih later]

/-- The instructions of an expression stand where its parts stand. -/
theorem instructions_mapSpan (f : Span → Span) (e : Expr) :
    (e.mapSpan f).instructions = e.instructions.map (Placed.mapSpan f) := by
  induction e using Expr.induction with
  | literal | var => rfl
  | neg _ _ _ ih =>
    simp only [mapSpan, instructions, ih, List.map_append]
    rfl
  | run _ _ _ ih ihs =>
    simp only [mapSpan, instructions, ih, stepInstructions_mapSpan ihs, List.map_append]
  | call _ _ _ ih =>
    simp only [mapSpan, instructions, argInstructions_mapSpan ih, length_mapSpanArgs,
      List.map_append]
    rfl

end Expr

variable {f g : Span → Span}

/-- Instructions that are alike need as much of the stack, or too much of it at the same
place. -/
theorem Program.peak_similar {code code' : List Placed}
    (alike : code.map (Placed.mapSpan f) = code'.map (Placed.mapSpan g)) (height most : Nat) :
    Similar f g (· = ·) (peak height most code) (peak height most code') := by
  induction code generalizing code' height most with
  | nil =>
    rw [List.map_nil, eq_comm, List.map_eq_nil_iff] at alike
    rw [alike]
    exact .ok rfl
  | cons placed rest ih =>
    obtain ⟨placed', rest', rfl, here, later⟩ := List.map_eq_cons_iff.mp alike.symm
    obtain ⟨span, instr⟩ : g placed'.span = f placed.span ∧ placed'.instr = placed.instr := by
      simpa [Placed.mapSpan] using here
    rw [peak, peak, instr]
    split
    · exact .error rfl span.symm
    · exact ih later.symm _ _

theorem Program.ofExpr_similar {e e' : Expr} (alike : e.Alike f g e') :
    Similar f g (· = ·) (ofExpr e) (ofExpr e') := by
  have placed : e.instructions.map (Placed.mapSpan f) = e'.instructions.map (Placed.mapSpan g) := by
    rw [← Expr.instructions_mapSpan, ← Expr.instructions_mapSpan, alike]
  have code : e.instructions.map Placed.instr = e'.instructions.map Placed.instr := by
    simpa [Function.comp_def, Placed.mapSpan] using congrArg (List.map Placed.instr) placed
  have peaked := peak_similar placed 0 0
  unfold ofExpr
  rw [code]
  generalize peak 0 0 e.instructions = found at peaked
  generalize peak 0 0 e'.instructions = found' at peaked
  cases peaked with
  | ok same => exact .ok (by rw [same])
  | error fault span => exact .error fault span

/-- Alike expressions stay alike when they are folded. -/
theorem Options.prepare_alike (hf : Span.Spread f) (hg : Span.Spread g) (options : Options)
    {e e' : Expr} (alike : e.Alike f g e') :
    (options.prepare e).Alike f g (options.prepare e') := by
  unfold Options.prepare
  split
  · rw [Expr.Alike, Expr.mapSpan_fold hf, Expr.mapSpan_fold hg, alike]
  · exact alike

end Formula
