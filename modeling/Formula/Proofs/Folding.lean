import Formula.Proofs.Evaluation

/-!
# Folding changes no value

Folding computes with the same operations what `Expr.eval` would compute, and in the same
order: a negation, the beginning of a run and a call have the values they had
(`eval_negate`, `eval_combine`, `eval_apply`), and so has every expression (`eval_fold`).
No law of arithmetic is used. A text therefore has the same value with folding and without
(`fold_exact`).
-/

namespace Formula

open Except (ok error)

namespace Expr

variable (store : Store)

theorem eval_of_literal? {e : Expr} {value : Float} (h : e.literal? = some value) :
    e.eval store = value := by
  cases e with
  | literal => cases h; rfl
  | var | neg | run | call => cases h

theorem eval_chain (first : Expr) (steps : List (Step Expr)) :
    (chain first steps).eval store = evalSteps store (first.eval store) steps := by
  cases steps with
  | nil => rfl
  | cons step rest =>
    obtain ⟨span, e⟩ := chain_cons first step rest
    rw [e, eval]

theorem eval_negate (sign : Span) (operand : Expr) :
    (negate sign operand).eval store = -operand.eval store := by
  unfold negate
  split
  · rfl
  · rfl

/-- Numbers at the start of a run can be combined before the rest of it: this is the order
in which the run is combined anyway. -/
theorem eval_combine (first : Expr) (steps : List (Step Expr)) :
    (combine first steps).eval store = evalSteps store (first.eval store) steps := by
  induction steps generalizing first with
  | nil => rfl
  | cons step rest ih =>
    rw [combine]
    split
    · rename_i x y hx hy
      rw [ih, evalSteps, eval_of_literal? store hx, eval_of_literal? store hy]
      rfl
    · exact eval_chain store first (step :: rest)

theorem evalArgs_of_literals? {args : List Expr} {values : List Float}
    (h : literals? args = some values) : evalArgs store args = values := by
  induction args generalizing values with
  | nil => cases h; rfl
  | cons arg rest ih =>
    rw [literals?] at h
    split at h
    · rename_i value values here later
      cases h
      rw [evalArgs, eval_of_literal? store here, ih later]
    · cases h

omit store in
theorem length_literals? {args : List Expr} {values : List Float}
    (h : literals? args = some values) : values.length = args.length := by
  rw [← evalArgs_of_literals? (fun _ => 0) h, evalArgs_eq_map, List.length_map]

theorem eval_apply (span : Span) (func : Func) (args : List Expr) :
    (apply span func args).eval store =
      (func.value? (evalArgs store args)).getD Number.nan := by
  unfold apply
  split
  · rename_i value h
    obtain ⟨values, literals, applied⟩ := Option.bind_eq_some_iff.mp h
    rw [evalArgs_of_literals? store literals, applied]
    rfl
  · rfl

theorem evalSteps_foldSteps {steps : List (Step Expr)}
    (h : ∀ step ∈ steps, step.operand.fold.eval store = step.operand.eval store)
    (value : Float) : evalSteps store value (foldSteps steps) = evalSteps store value steps := by
  induction steps generalizing value with
  | nil => rfl
  | cons step rest ih =>
    obtain ⟨here, later⟩ := List.forall_mem_cons.mp h
    rw [foldSteps, evalSteps, evalSteps, here, ih later]

theorem evalArgs_foldArgs {args : List Expr}
    (h : ∀ arg ∈ args, arg.fold.eval store = arg.eval store) :
    evalArgs store (foldArgs args) = evalArgs store args := by
  rw [foldArgs_eq_map, evalArgs_eq_map, evalArgs_eq_map, List.map_map]
  exact List.map_congr_left h

/-- An expression has the value that it has when it is folded. -/
theorem eval_fold (e : Expr) : e.fold.eval store = e.eval store := by
  induction e using Expr.induction with
  | literal | var => rfl
  | neg _ sign operand ih => rw [fold, eval_negate, ih, eval]
  | run _ first steps ih ihs =>
    rw [fold, eval_combine, ih, evalSteps_foldSteps store ihs, eval]
  | call span func args ih => rw [fold, eval_apply, evalArgs_foldArgs store ih, eval]

end Expr

theorem Options.eval_prepare (options : Options) (e : Expr) (store : Store) :
    (options.prepare e).eval store = e.eval store := by
  unfold Options.prepare
  split
  · exact e.eval_fold store
  · rfl

/-- The value of the program of a text is that of the expression that was read. -/
theorem eval_of_compile {options : Options} {scope : Scope} {source : String} {p : Program}
    (h : compile options scope source = ok p) :
    ∃ e, parse scope options.maxLevels source = ok e ∧ ∀ store, p.eval store = e.eval store := by
  obtain ⟨e, parsed, accepted, laid⟩ := compile_eq_ok h
  refine ⟨e, parsed, fun store => ?_⟩
  rw [Program.eval_ofExpr laid (options.accepted_prepare accepted), options.eval_prepare]

/-- Folding changes no value: neither of an expression nor, where a text has a program with
folding and one without, of the text. -/
theorem fold_exact :
    (∀ (e : Expr) (store : Store), e.fold.eval store = e.eval store) ∧
      ∀ (options : Options) (scope : Scope) (source : String) (folded plain : Program),
        compile { options with fold := true } scope source = ok folded →
        compile { options with fold := false } scope source = ok plain →
        ∀ store, folded.eval store = plain.eval store := by
  refine ⟨fun e store => e.eval_fold store, ?_⟩
  intro options scope source folded plain hf hp store
  obtain ⟨e, parsed, value⟩ := eval_of_compile hf
  obtain ⟨e', parsed', value'⟩ := eval_of_compile hp
  cases parsed.symm.trans parsed'
  rw [value, value']

/-- With folding the product in this text is one instruction, and without it is three. -/
theorem fold_exact_product :
    ∃ folded plain,
      compile { fold := true } (Scope.builtin.bind "x" (.cell "x")) "2 * 3 - x" = ok folded ∧
      compile { fold := false } (Scope.builtin.bind "x" (.cell "x")) "2 * 3 - x" = ok plain ∧
      folded.size = 3 ∧ plain.size = 5 ∧
      folded.eval (fun _ => 1) = plain.eval fun _ => 1 := by
  have three : ((compile { fold := true } (Scope.builtin.bind "x" (.cell "x"))
      "2 * 3 - x").map Program.size).toOption = some 3 := by decide +kernel
  have five : ((compile { fold := false } (Scope.builtin.bind "x" (.cell "x"))
      "2 * 3 - x").map Program.size).toOption = some 5 := by decide +kernel
  obtain ⟨folded, hf, size⟩ := Program.exists_of_map three
  obtain ⟨plain, hp, size'⟩ := Program.exists_of_map five
  exact ⟨folded, plain, hf, hp, size, size', fold_exact.2 {} _ _ folded plain hf hp _⟩

end Formula
