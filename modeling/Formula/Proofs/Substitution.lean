import Formula.Proofs.Savings

/-!
# Numbers in the place of variables

Variables of which the value is known can be replaced by numbers (`Expr.subst`). An expression
then has the value it had in every store in which the cells hold these numbers
(`Expr.eval_subst`), and needs as much of the stack (`Expr.need_subst`). More of it can be
folded. What could be folded before can be folded first, with the same result
(`Expr.fold_subst_fold`), so the expression is laid out with no more of the stack, folded or not
(`Options.need_prepare_subst_le`).
-/

namespace Formula

/-- The numbers for variables of which the value is known, by their names and cells. -/
abbrev Known :=
  String → Cell → Option Float

namespace Expr

mutual

/-- The expression with numbers for the variables that are known. -/
def subst (known : Known) : Expr → Expr
  | literal span value => .literal span value
  | var span name cell => (known name cell).elim (.var span name cell) (.literal span)
  | neg span sign operand => .neg span sign (operand.subst known)
  | run span first steps => .run span (first.subst known) (substSteps known steps)
  | call span func args => .call span func (substArgs known args)
termination_by structural e => e

/-- Steps with numbers for the variables that are known. -/
def substSteps (known : Known) : List (Step Expr) → List (Step Expr)
  | [] => []
  | ⟨op, span, operand⟩ :: rest => ⟨op, span, operand.subst known⟩ :: substSteps known rest
termination_by structural steps => steps

/-- Arguments with numbers for the variables that are known. -/
def substArgs (known : Known) : List Expr → List Expr
  | [] => []
  | arg :: rest => arg.subst known :: substArgs known rest
termination_by structural args => args

end

variable (known : Known)

@[simp] theorem span_subst (e : Expr) : (e.subst known).span = e.span := by
  cases e with
  | var _ name cell => rw [subst]; cases known name cell <;> rfl
  | literal | neg | run | call => rfl

@[simp] theorem subst_withSpan (span : Span) (e : Expr) :
    (e.withSpan span).subst known = (e.subst known).withSpan span := by
  cases e with
  | var _ name cell => rw [withSpan, subst, subst]; cases known name cell <;> rfl
  | literal | neg | run | call => rfl

theorem substSteps_eq_map (steps : List (Step Expr)) :
    substSteps known steps =
      steps.map fun step => { step with operand := step.operand.subst known } := by
  induction steps with
  | nil => rfl
  | cons step rest ih => rw [substSteps, ih]; rfl

theorem substArgs_eq_map (args : List Expr) : substArgs known args = args.map (subst known) := by
  induction args with
  | nil => rfl
  | cons arg rest ih => rw [substArgs, ih]; rfl

@[simp] theorem length_substArgs (args : List Expr) :
    (substArgs known args).length = args.length := by
  rw [substArgs_eq_map, List.length_map]

theorem subst_chain (first : Expr) (steps : List (Step Expr)) :
    (chain first steps).subst known = chain (first.subst known) (substSteps known steps) := by
  rw [substSteps_eq_map]
  unfold chain
  rw [List.getLast?_map]
  cases steps.getLast? with
  | none => rfl
  | some last => simp [subst, substSteps_eq_map]

/-- Nothing changes if no variable is known. -/
theorem subst_none (e : Expr) : (e.subst fun _ _ => none) = e := by
  induction e using Expr.induction with
  | literal | var => rfl
  | neg _ _ _ ih => rw [subst, ih]
  | run _ _ steps ih ihs =>
    have same : substSteps (fun _ _ => none) steps = steps := by
      rw [substSteps_eq_map]
      exact (List.map_congr_left fun step h => by rw [ihs step h]; rfl).trans (List.map_id steps)
    rw [subst, ih, same]
  | call _ _ args ih =>
    have same : substArgs (fun _ _ => none) args = args := by
      rw [substArgs_eq_map]
      exact (List.map_congr_left ih).trans (List.map_id args)
    rw [subst, same]

/-- Calls keep the number of their arguments. -/
theorem Accepted.subst {e : Expr} (h : e.Accepted) : (e.subst known).Accepted := by
  induction h with
  | literal span value => exact .literal span value
  | var span name cell =>
    rw [Expr.subst]
    cases known name cell with
    | none => exact .var span name cell
    | some value => exact .literal span value
  | neg _ ih => exact .neg ih
  | run _ _ ih ihs =>
    refine .run ih ?_
    rw [substSteps_eq_map]
    exact List.forall_mem_map.mpr ihs
  | call accepted _ ih =>
    refine .call ?_ ?_
    · rw [length_substArgs]
      exact accepted
    · rw [substArgs_eq_map]
      exact List.forall_mem_map.mpr ih

/-! ## Values -/

section Eval

variable {known} {store : Store}

theorem evalArgs_substArgs {args : List Expr}
    (h : ∀ arg ∈ args, (arg.subst known).eval store = arg.eval store) :
    evalArgs store (substArgs known args) = evalArgs store args := by
  rw [substArgs_eq_map, evalArgs_eq_map, evalArgs_eq_map, List.map_map]
  exact List.map_congr_left h

theorem evalSteps_substSteps {steps : List (Step Expr)}
    (h : ∀ step ∈ steps, (step.operand.subst known).eval store = step.operand.eval store)
    (value : Float) :
    evalSteps store value (substSteps known steps) = evalSteps store value steps := by
  induction steps generalizing value with
  | nil => rfl
  | cons step rest ih =>
    obtain ⟨here, later⟩ := List.forall_mem_cons.mp h
    rw [substSteps, evalSteps, evalSteps, here, ih later]

/-- In a store that holds the known numbers, an expression keeps its value. -/
theorem eval_subst (holds : ∀ name cell value, known name cell = some value → store cell = value)
    (e : Expr) : (e.subst known).eval store = e.eval store := by
  induction e using Expr.induction with
  | literal => rfl
  | var span name cell =>
    rw [subst]
    cases found : known name cell with
    | none => rfl
    | some value => exact (holds name cell value found).symm
  | neg _ _ _ ih => rw [subst, eval, eval, ih]
  | run _ _ _ ih ihs => rw [subst, eval, eval, ih, evalSteps_substSteps ihs]
  | call _ _ _ ih => rw [subst, eval, eval, evalArgs_substArgs ih]

end Eval

/-! ## The stack -/

theorem needSteps_substSteps {steps : List (Step Expr)}
    (h : ∀ step ∈ steps, (step.operand.subst known).need = step.operand.need) :
    needSteps (substSteps known steps) = needSteps steps := by
  induction steps with
  | nil => rfl
  | cons step rest ih =>
    obtain ⟨here, later⟩ := List.forall_mem_cons.mp h
    rw [substSteps, needSteps, needSteps, here, ih later]

theorem needArgs_substArgs {args : List Expr}
    (h : ∀ arg ∈ args, (arg.subst known).need = arg.need) :
    needArgs (substArgs known args) = needArgs args := by
  induction args with
  | nil => rfl
  | cons arg rest ih =>
    obtain ⟨here, later⟩ := List.forall_mem_cons.mp h
    rw [substArgs, needArgs, needArgs, here, ih later]

/-- A number takes as much of the stack as a variable. -/
@[simp] theorem need_subst (e : Expr) : (e.subst known).need = e.need := by
  induction e using Expr.induction with
  | literal => rfl
  | var _ name cell => rw [subst]; cases known name cell <;> rfl
  | neg _ _ _ ih => rw [subst, need, need, ih]
  | run _ _ _ ih ihs => rw [subst, need, need, ih, needSteps_substSteps known ihs]
  | call _ _ _ ih => rw [subst, need, need, needArgs_substArgs known ih]

/-! ## Folding -/

/-- Numbers stay what they are. -/
theorem fold_subst_of_literal? {e : Expr} {value : Float} (h : e.literal? = some value) :
    (e.subst known).fold = e := by
  cases e with
  | literal => rfl
  | var | neg | run | call => cases h

theorem fold_subst_negate (sign : Span) (operand : Expr) :
    ((negate sign operand).subst known).fold = negate sign (operand.subst known).fold := by
  cases operand <;> rfl

theorem fold_subst_combine (first : Expr) (steps : List (Step Expr)) :
    ((combine first steps).subst known).fold =
      combine (first.subst known).fold (foldSteps (substSteps known steps)) := by
  induction steps generalizing first with
  | nil => rfl
  | cons step rest ih =>
    rw [combine]
    split
    · rename_i x y hx hy
      rw [ih, substSteps, foldSteps, fold_subst_of_literal? known hx,
        fold_subst_of_literal? known hy, combine, hx, hy]
      rfl
    · obtain ⟨span, e⟩ := chain_cons first step rest
      rw [e]
      rfl

theorem foldArgs_substArgs_of_literals? {args : List Expr} {values : List Float}
    (h : literals? args = some values) : foldArgs (substArgs known args) = args := by
  induction args generalizing values with
  | nil => rfl
  | cons arg rest ih =>
    rw [literals?] at h
    split at h
    · rename_i here later
      rw [substArgs, foldArgs, fold_subst_of_literal? known here, ih later]
    · cases h

theorem fold_subst_apply (span : Span) (func : Func) (args : List Expr) :
    ((apply span func args).subst known).fold =
      apply span func (foldArgs (substArgs known args)) := by
  cases found : (literals? args).bind func.value? with
  | none =>
    rw [apply, found]
    rfl
  | some value =>
    obtain ⟨values, literals, -⟩ := Option.bind_eq_some_iff.mp found
    rw [foldArgs_substArgs_of_literals? known literals, apply, found]
    rfl

theorem foldSteps_substSteps {steps : List (Step Expr)}
    (h : ∀ step ∈ steps, (step.operand.fold.subst known).fold = (step.operand.subst known).fold) :
    foldSteps (substSteps known (foldSteps steps)) = foldSteps (substSteps known steps) := by
  induction steps with
  | nil => rfl
  | cons step rest ih =>
    obtain ⟨here, later⟩ := List.forall_mem_cons.mp h
    rw [foldSteps, substSteps, foldSteps, here, ih later, substSteps, foldSteps]

theorem foldArgs_substArgs {args : List Expr}
    (h : ∀ arg ∈ args, (arg.fold.subst known).fold = (arg.subst known).fold) :
    foldArgs (substArgs known (foldArgs args)) = foldArgs (substArgs known args) := by
  induction args with
  | nil => rfl
  | cons arg rest ih =>
    obtain ⟨here, later⟩ := List.forall_mem_cons.mp h
    rw [foldArgs, substArgs, foldArgs, here, ih later, substArgs, foldArgs]

/-- Folding before numbers are put in makes no difference if they are folded afterwards. -/
theorem fold_subst_fold (e : Expr) : (e.fold.subst known).fold = (e.subst known).fold := by
  induction e using Expr.induction with
  | literal | var => rfl
  | neg _ sign operand ih => rw [fold, fold_subst_negate, ih]; rfl
  | run _ first steps ih ihs =>
    rw [fold, fold_subst_combine, ih, foldSteps_substSteps known ihs]
    rfl
  | call span func args ih =>
    rw [fold, fold_subst_apply, foldArgs_substArgs known ih]
    rfl

end Expr

/-- With numbers for variables no more of the stack is needed, folded or not. -/
theorem Options.need_prepare_subst_le (options : Options) (known : Known) (e : Expr) :
    (options.prepare (e.subst known)).need ≤ (options.prepare e).need := by
  unfold prepare
  split
  · calc (e.subst known).fold.need
        = (e.fold.subst known).fold.need := by rw [Expr.fold_subst_fold]
      _ ≤ (e.fold.subst known).need := (Expr.load_fold _).values
      _ = e.fold.need := Expr.need_subst known _
  · exact Nat.le_of_eq (Expr.need_subst known e)

end Formula
