import Formula.Proofs.Constant
import Formula.Proofs.Parts

/-!
# Folding once is enough

What folding leaves has nothing left to compute (`Expr.Folded`): no negation of a number, no run
that starts with two numbers, and no call of numbers. Its spans are those that folding gives, so
it is folded to itself (`Folded.fold_eq`), and a second folding changes nothing (`fold_once`).
-/

namespace Formula.Expr

/-- Whether an expression itself can be computed: it is the negation of a number, a run that
starts with two numbers, or a call whose arguments are all numbers. -/
def computable : Expr → Bool
  | neg _ _ operand => operand.literal?.isSome
  | run _ first (step :: _) => first.literal?.isSome && step.operand.literal?.isSome
  | call _ _ args => args.all fun arg => arg.literal?.isSome
  | _ => false

/-- Nothing in an expression can be computed, and the spans of its negations and runs go from
their first part to their last. -/
inductive Folded : Expr → Prop where
  | literal (span : Span) (value : Float) : Folded (.literal span value)
  | var (span : Span) (name : String) (cell : Cell) : Folded (.var span name cell)
  | neg {sign : Span} {operand : Expr} : operand.literal? = none → Folded operand →
      Folded (.neg (sign.through operand.span) sign operand)
  | run {first : Expr} {step : Step Expr} {rest : List (Step Expr)} :
      first.literal? = none ∨ step.operand.literal? = none → Folded first →
      (∀ each ∈ step :: rest, Folded each.operand) → Folded (chain first (step :: rest))
  | call (span : Span) {func : Func} {args : List Expr} : literals? args = none →
      (∀ arg ∈ args, Folded arg) → Folded (.call span func args)

variable {e first operand : Expr} {step : Step Expr} {rest steps : List (Step Expr)}
  {args : List Expr} {func : Func}

/-! ## Where nothing is computed -/

theorem negate_of_none (h : operand.literal? = none) (sign : Span) :
    negate sign operand = .neg (sign.through operand.span) sign operand := by
  cases operand with
  | literal => cases h
  | var | neg | run | call => rfl

theorem combine_of_none (h : first.literal? = none ∨ step.operand.literal? = none) :
    combine first (step :: rest) = chain first (step :: rest) := by
  rw [combine]
  split
  · rename_i x y hx hy
    rw [hx, hy] at h
    rcases h with h | h <;> cases h
  · rfl

theorem apply_of_none (h : literals? args = none) (span : Span) (func : Func) :
    apply span func args = .call span func args := by
  rw [apply, h]
  rfl

theorem isSome_literals? (args : List Expr) :
    (literals? args).isSome = args.all fun arg => arg.literal?.isSome := by
  induction args with
  | nil => rfl
  | cons arg rest ih =>
    rw [literals?, List.all_cons, ← ih]
    cases arg.literal? <;> cases literals? rest <;> rfl

namespace Folded

/-- An expression in which nothing can be computed is folded to itself. -/
theorem fold_eq (h : e.Folded) : e.fold = e := by
  induction h with
  | literal | var => rfl
  | neg number _ ih => rw [fold, ih, negate_of_none number]
  | @run first step rest numbers _ _ ih ihs =>
    have operands : foldSteps (step :: rest) = step :: rest := by
      rw [foldSteps_eq_map]
      refine (List.map_congr_left fun each he => ?_).trans (List.map_id _)
      rw [ihs each he]
      rfl
    obtain ⟨span, run⟩ := chain_cons first step rest
    calc (chain first (step :: rest)).fold
      _ = combine first.fold (foldSteps (step :: rest)) := by rw [run, fold]
      _ = chain first (step :: rest) := by rw [ih, operands, combine_of_none numbers]
  | @call span func args numbers _ ih =>
    have same : foldArgs args = args := by
      rw [foldArgs_eq_map]
      exact (List.map_congr_left ih).trans (List.map_id _)
    rw [fold, same, apply_of_none numbers]

theorem computable_eq (h : e.Folded) : e.computable = false := by
  cases h with
  | literal | var => rfl
  | neg number => rw [computable, number]; rfl
  | @run first step rest numbers =>
    obtain ⟨span, run⟩ := chain_cons first step rest
    rw [run, computable]
    rcases numbers with none | none <;> simp [none]
  | call _ numbers => rw [computable, ← isSome_literals?, numbers]; rfl

theorem children (h : e.Folded) : ∀ child ∈ e.children, child.Folded := by
  cases h with
  | literal | var => exact List.forall_mem_nil _
  | neg _ operand => exact List.forall_mem_singleton.mpr operand
  | @run first step rest _ head operands =>
    obtain ⟨span, run⟩ := chain_cons first step rest
    rw [run]
    exact List.forall_mem_cons.mpr ⟨head, List.forall_mem_map.mpr operands⟩
  | call _ _ args => exact args

/-! ## Folding -/

theorem negate (h : operand.Folded) (sign : Span) : (negate sign operand).Folded := by
  cases operand with
  | literal => exact .literal _ _
  | var | neg | run | call => exact .neg rfl h

theorem combine (h : first.Folded) (hs : ∀ step ∈ steps, step.operand.Folded) :
    (combine first steps).Folded := by
  induction steps generalizing first with
  | nil => exact h
  | cons step rest ih =>
    rw [Expr.combine]
    split
    · exact ih (.literal _ _) (List.forall_mem_cons.mp hs).2
    · rename_i numbers
      refine .run ?_ h hs
      cases hx : first.literal? with
      | none => exact .inl rfl
      | some x => exact .inr (Option.eq_none_iff_forall_ne_some.mpr fun y => numbers x y hx)

theorem apply (accepted : func.arity.accepts args.length = true)
    (h : ∀ arg ∈ args, arg.Folded) (span : Span) : (apply span func args).Folded := by
  cases literals : literals? args with
  | none => rw [apply_of_none literals]; exact .call span literals h
  | some values =>
    obtain ⟨value, applied⟩ := Func.exists_value? (length_literals? literals ▸ accepted)
    rw [Expr.apply, literals, Option.bind_some, applied]
    exact .literal span value

end Folded

/-- Nothing that is left by folding can be computed. -/
theorem Accepted.folded (h : e.Accepted) : e.fold.Folded := by
  induction h with
  | literal span value => exact .literal span value
  | var span name cell => exact .var span name cell
  | neg _ ih => exact ih.negate _
  | run _ _ ih ihs =>
    rw [Expr.fold, foldSteps_eq_map]
    exact ih.combine (List.forall_mem_map.mpr ihs)
  | call accepted _ ih =>
    rw [Expr.fold, foldArgs_eq_map]
    exact .apply (by rwa [List.length_map]) (List.forall_mem_map.mpr ih) _

end Formula.Expr

namespace Formula

/-- Folding twice is folding once, spans included, and nothing that is left can be computed. -/
theorem fold_once (e : Expr) (accepted : e.Accepted) :
    e.fold.fold = e.fold ∧ ∀ part : Expr, part.PartOf e.fold → part.computable = false := by
  refine ⟨accepted.folded.fold_eq, fun part inside => ?_⟩
  have folded : part.Folded := inside.inherit (fun _ => Expr.Folded.children) accepted.folded
  exact folded.computable_eq

/-- A run of a negation, a call without arguments and two more operands. The first two are
computed, which leaves a run of three operands. -/
theorem fold_once_run : ∃ e : Expr, e.Accepted ∧ e.size = 6 ∧ e.fold.size = 4 ∧
    e.fold.fold = e.fold ∧ ∀ part : Expr, part.PartOf e.fold → part.computable = false := by
  let e : Expr := .run ⟨0, 10⟩ (.neg ⟨0, 2⟩ ⟨0, 1⟩ (.literal ⟨1, 2⟩ 2))
    [⟨.mul, ⟨2, 3⟩, .call ⟨3, 6⟩ ⟨"f", .variadic (.exactly 0) fun _ => 1⟩ []⟩,
      ⟨.add, ⟨6, 7⟩, .var ⟨7, 8⟩ "x" "x"⟩, ⟨.sub, ⟨8, 9⟩, .literal ⟨9, 10⟩ 3⟩]
  have accepted : e.Accepted := by
    refine .run (.neg (.literal _ _)) ?_
    simp only [List.forall_mem_cons]
    exact ⟨.call rfl (List.forall_mem_nil _), .var _ _ _, .literal _ _, List.forall_mem_nil _⟩
  obtain ⟨same, settled⟩ := fold_once e accepted
  exact ⟨e, accepted, rfl, rfl, same, settled⟩

end Formula
