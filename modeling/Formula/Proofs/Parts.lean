import Formula.Expr.Basic

/-!
# Parts of an expression

The expressions an expression holds, at any depth, itself included (`Expr.PartOf`). A property
that goes from an expression to its children is one of all its parts (`PartOf.inherit`).
-/

namespace Formula.Expr

/-- The operands of an expression, or its arguments, from left to right. -/
def children : Expr → List Expr
  | literal _ _ => []
  | var _ _ _ => []
  | neg _ _ operand => [operand]
  | run _ first steps => first :: steps.map Step.operand
  | call _ _ args => args

/-- An expression is a part of itself, and so are the parts of its children. -/
inductive PartOf (part : Expr) : Expr → Prop where
  | self : PartOf part part
  | child {child whole : Expr} :
      child ∈ whole.children → PartOf part child → PartOf part whole

variable {part e first : Expr} {steps : List (Step Expr)}

@[simp] theorem children_withSpan (span : Span) (e : Expr) :
    (e.withSpan span).children = e.children := by
  cases e <;> rfl

/-- What goes from an expression to its children goes to all its parts. -/
theorem PartOf.inherit {P : Expr → Prop} (h : part.PartOf e)
    (down : ∀ e, P e → ∀ child ∈ e.children, P child) (whole : P e) : P part := by
  induction h with
  | self => exact whole
  | child hc _ ih => exact ih (down _ whole _ hc)

/-- The parts of a run are itself and those of its operands. -/
theorem PartOf.of_chain (h : part.PartOf (chain first steps)) :
    part = chain first steps ∨ part.PartOf first ∨ ∃ step ∈ steps, part.PartOf step.operand := by
  cases steps with
  | nil => exact .inr (.inl h)
  | cons step rest =>
    obtain ⟨span, run⟩ := chain_cons first step rest
    rw [run] at h ⊢
    cases h with
    | self => exact .inl rfl
    | child hc inner =>
      rcases List.mem_cons.mp hc with rfl | hc
      · exact .inr (.inl inner)
      · obtain ⟨operand, hs, rfl⟩ := List.mem_map.mp hc
        exact .inr (.inr ⟨operand, hs, inner⟩)

end Formula.Expr
