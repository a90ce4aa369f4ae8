import Formula.Proofs.Dependencies

/-!
# Formulas without variables

An expression that reads no cell folds to one number, whatever its shape and however many values
its own instructions would put on the stack (`Expr.exists_literal?_fold`): a run whose operands
are numbers is combined to its end, and a call whose arguments are numbers has a value, since
their number is accepted.

A program that is one number reads no name. So with folding a text that can be read has a program
that is one number if none of its names stands for a cell, and no other text has such a program
(`constant_iff`).
-/

namespace Formula

open Except (ok error)

/-- No name among the tokens stands for a cell. -/
def Scope.NoCell (scope : Scope) (ts : List Token) : Prop :=
  ∀ token ∈ ts, token.kind = .name → ∀ cell, scope.resolve token.text ≠ some (.cell cell)

theorem Scope.loads_eq_nil_iff {scope : Scope} {ts : List Token} :
    scope.loads ts = [] ↔ scope.NoCell ts := by
  simp only [loads, List.filterMap_eq_nil_iff, NoCell, Option.eq_none_iff_forall_ne_some,
    Prod.forall, ne_eq, Token.load?_eq_some_iff]
  grind

namespace Expr

theorem names_loadSteps_eq_nil {steps : List (Step Expr)} (h : (loadSteps steps).names = []) :
    ∀ step ∈ steps, step.operand.load.names = [] := by
  induction steps with
  | nil => exact List.forall_mem_nil _
  | cons step rest ih =>
    rw [loadSteps_cons] at h
    obtain ⟨here, later⟩ := List.append_eq_nil_iff.mp h
    exact List.forall_mem_cons.mpr ⟨here, ih later⟩

theorem names_loadArgs_eq_nil {args : List Expr} (h : (loadArgs args).names = []) :
    ∀ arg ∈ args, arg.load.names = [] := by
  induction args with
  | nil => exact List.forall_mem_nil _
  | cons arg rest ih =>
    rw [loadArgs_cons] at h
    obtain ⟨here, later⟩ := List.append_eq_nil_iff.mp h
    exact List.forall_mem_cons.mpr ⟨here, ih later⟩

/-! ## Folding to the end -/

theorem exists_literal?_negate {operand : Expr} (h : ∃ value, operand.literal? = some value)
    (sign : Span) : ∃ value, (negate sign operand).literal? = some value := by
  obtain ⟨value, number⟩ := h
  cases operand with
  | literal => exact ⟨_, rfl⟩
  | var | neg | run | call => cases number

/-- Numbers after a number are combined with it to the last. -/
theorem exists_literal?_combine {first : Expr} {steps : List (Step Expr)}
    (h : ∃ value, first.literal? = some value)
    (hs : ∀ step ∈ steps, ∃ value, step.operand.literal? = some value) :
    ∃ value, (combine first steps).literal? = some value := by
  induction steps generalizing first with
  | nil => exact h
  | cons step rest ih =>
    obtain ⟨x, hx⟩ := h
    obtain ⟨⟨y, hy⟩, later⟩ := List.forall_mem_cons.mp hs
    simp only [combine, hx, hy]
    exact ih ⟨_, rfl⟩ later

theorem exists_literals? {args : List Expr} (h : ∀ arg ∈ args, ∃ value, arg.literal? = some value) :
    ∃ values, literals? args = some values := by
  induction args with
  | nil => exact ⟨[], rfl⟩
  | cons arg rest ih =>
    obtain ⟨⟨value, here⟩, later⟩ := List.forall_mem_cons.mp h
    obtain ⟨values, others⟩ := ih later
    exact ⟨value :: values, by simp only [literals?, here, others]⟩

/-- A call of numbers has a value if their number is accepted. None may be accepted. -/
theorem exists_literal?_apply {func : Func} {args : List Expr}
    (accepted : func.arity.accepts args.length = true)
    (h : ∀ arg ∈ args, ∃ value, arg.literal? = some value) (span : Span) :
    ∃ value, (apply span func args).literal? = some value := by
  obtain ⟨values, literals⟩ := exists_literals? h
  obtain ⟨value, applied⟩ := Func.exists_value? (length_literals? literals ▸ accepted)
  exact ⟨value, by simp only [apply, literals, Option.bind_some, applied, literal?]⟩

/-- An expression that reads no cell folds to a number. -/
theorem exists_literal?_fold {e : Expr} (accepted : e.Accepted) (h : e.load.names = []) :
    ∃ value, e.fold.literal? = some value := by
  induction accepted with
  | literal _ value => exact ⟨value, rfl⟩
  | var => cases h
  | neg _ ih =>
    rw [load_neg] at h
    exact exists_literal?_negate (ih h) _
  | run _ _ ih ihs =>
    rw [load_run] at h
    obtain ⟨here, later⟩ := List.append_eq_nil_iff.mp h
    have numbers := names_loadSteps_eq_nil later
    rw [fold, foldSteps_eq_map]
    exact exists_literal?_combine (ih here)
      (List.forall_mem_map.mpr fun step hs => ihs step hs (numbers step hs))
  | call accepted _ ih =>
    rw [load_call] at h
    have numbers := names_loadArgs_eq_nil h
    rw [fold, foldArgs_eq_map]
    exact exists_literal?_apply (by rwa [List.length_map])
      (List.forall_mem_map.mpr fun arg ha => ih arg ha (numbers arg ha)) _

end Expr

namespace Program

/-- An expression that is a number has a program, which is that number. -/
theorem ofExpr_of_literal? {e : Expr} {value : Float} (h : e.literal? = some value) :
    ofExpr e = ok ⟨[.const value], 1⟩ := by
  cases e with
  | literal => cases h; rfl
  | var | neg | run | call => cases h

theorem names_of_isConstant {p : Program} (h : p.isConstant = true) : p.names = [] := by
  unfold isConstant at h
  split at h
  · rename_i code
    rw [names, code]
    rfl
  · cases h

end Program

/-- A program reads no name if and only if its text has no variable. -/
theorem names_eq_nil_iff {options : Options} {scope : Scope} {source : String} {p : Program}
    (h : compile options scope source = ok p) : p.names = [] ↔ scope.NoCell (tokens source) := by
  rw [← Scope.loads_eq_nil_iff, names_of_compile h]
  simp only [List.eq_nil_iff_forall_not_mem, List.mem_eraseDups, List.mem_map]
  grind

/-- With folding, a text without variables is laid out as one number. -/
theorem exists_isConstant {options : Options} {scope : Scope} {source : String} {e : Expr}
    (folding : options.fold = true) (parsed : parse scope options.maxLevels source = ok e)
    (closed : scope.NoCell (tokens source)) :
    ∃ p, Program.ofExpr (options.prepare e) = ok p ∧ p.isConstant = true := by
  have none : e.load.names = [] := by
    rw [← Scope.loads_eq_nil_iff, ← loads_of_parse parsed] at closed
    rw [Expr.load, Expr.names_eq_map_loads, closed, List.map_nil]
  obtain ⟨value, folded⟩ := Expr.exists_literal?_fold (accepted_of_parse parsed) none
  rw [Options.prepare, if_pos folding]
  exact ⟨_, Program.ofExpr_of_literal? folded, rfl⟩

/-- A text that can be read and has no variable has a program when it is folded, which is one
number. And with folding a program is one number if and only if it reads no name, and that is if
and only if its text has no variable. -/
theorem constant_iff {options : Options} {scope : Scope} {source : String}
    (folding : options.fold = true) :
    (∀ e, source.utf8ByteSize ≤ options.maxLength → parse scope options.maxLevels source = ok e →
      scope.NoCell (tokens source) →
      ∃ p, compile options scope source = ok p ∧ p.isConstant = true) ∧
    ∀ p, compile options scope source = ok p →
      (p.isConstant = true ↔ p.names = []) ∧
        (p.names = [] ↔ scope.NoCell (tokens source)) := by
  constructor
  · intro e short parsed closed
    obtain ⟨p, laid, constant⟩ := exists_isConstant folding parsed closed
    exact ⟨p, compile_eq_ok_iff.mpr ⟨short, e, parsed, laid⟩, constant⟩
  · intro p compiled
    have closed_iff := names_eq_nil_iff compiled
    refine ⟨⟨Program.names_of_isConstant, fun none => ?_⟩, closed_iff⟩
    obtain ⟨e, parsed, -, laid⟩ := compile_eq_ok compiled
    obtain ⟨p', laid', constant⟩ := exists_isConstant folding parsed (closed_iff.mp none)
    cases laid.symm.trans laid'
    exact constant

/-- Runs, signs and calls, one of them of no argument, are one number without a variable. A
variable at the end of a run is left of it. -/
theorem constant_iff_nullary :
    (∃ p, compile {} (Scope.builtin.withVariadic "one" (.exactly 0) fun _ => 1)
        "2 - max(one(), -pi, 3 ^ 2)" = ok p ∧ p.isConstant = true ∧ p.names = []) ∧
    ∃ p, compile {} (Scope.builtin.withCell "x" "a") "2 - max(1, -pi) - x" = ok p ∧
      p.names = ["x"] ∧ p.isConstant ≠ true := by
  constructor
  · have closed : Scope.loads (Scope.builtin.withVariadic "one" (.exactly 0) fun _ => 1)
        (tokens "2 - max(one(), -pi, 3 ^ 2)") = [] := by decide +kernel
    have read : (parse (Scope.builtin.withVariadic "one" (.exactly 0) fun _ => 1) 64
        "2 - max(one(), -pi, 3 ^ 2)").toOption.isSome = true := by decide +kernel
    cases parsed : parse (Scope.builtin.withVariadic "one" (.exactly 0) fun _ => 1) 64
        "2 - max(one(), -pi, 3 ^ 2)" with
    | error =>
      rw [parsed] at read
      cases read
    | ok e =>
      obtain ⟨p, compiled, constant⟩ := (@constant_iff {} _ _ rfl).1 e (by decide +kernel) parsed
        (Scope.loads_eq_nil_iff.mp closed)
      exact ⟨p, compiled, constant, ((constant_iff rfl).2 p compiled).1.mp constant⟩
  · have reads : ((compile {} (Scope.builtin.withCell "x" "a") "2 - max(1, -pi) - x").map
        Program.names).toOption = some ["x"] := by decide +kernel
    obtain ⟨p, compiled, names⟩ := Program.exists_of_map reads
    refine ⟨p, compiled, names, fun constant => ?_⟩
    have none := ((constant_iff rfl).2 p compiled).1.mp constant
    rw [names] at none
    cases none

end Formula
