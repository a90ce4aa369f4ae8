import Formula.Proofs.Savings

/-!
# Levels and the stack

How many levels an expression takes up is told from the expression (`Expr.levels`): a sign, an
operand on the right of an operator and an argument open one, and so does a run at the start of a
run, which is there in parentheses or after a plus sign. An expression that was read takes up no
more levels than there were (`levels_lt_of_parse`).

Each level adds to the stack at most the values of the arguments before the one that opens it, or
the left operand of an operator (`Expr.need_le`). So the limit of levels and the greatest number
of arguments of a call bound the depth of a program, and with room enough no expression that was
read is refused (`nesting_bounds_depth`).
-/

namespace Formula

open Except (ok error)

namespace Expr

/-- The level that an expression opens besides its own where it starts a run. -/
def opening : Expr → Nat
  | run _ _ _ => 1
  | _ => 0

mutual

/-- The largest number of levels that are open at a time in an expression, besides its own. -/
def levels : Expr → Nat
  | literal _ _ => 0
  | var _ _ _ => 0
  | neg _ _ operand => operand.levels + 1
  | run _ first steps => max (first.levels + first.opening) (levelsSteps steps)
  | call _ _ args => levelsArgs args
termination_by structural e => e

/-- The same for the operands of some steps, each of which opens a level. -/
def levelsSteps : List (Step Expr) → Nat
  | [] => 0
  | ⟨_, _, operand⟩ :: rest => max (operand.levels + 1) (levelsSteps rest)
termination_by structural steps => steps

/-- The same for some arguments, each of which opens a level. -/
def levelsArgs : List Expr → Nat
  | [] => 0
  | arg :: rest => max (arg.levels + 1) (levelsArgs rest)
termination_by structural args => args

end

mutual

/-- The greatest number of arguments of a call in an expression. -/
def widest : Expr → Nat
  | literal _ _ => 0
  | var _ _ _ => 0
  | neg _ _ operand => operand.widest
  | run _ first steps => max first.widest (widestSteps steps)
  | call _ _ args => max args.length (widestArgs args)
termination_by structural e => e

/-- The same for the operands of some steps. -/
def widestSteps : List (Step Expr) → Nat
  | [] => 0
  | ⟨_, _, operand⟩ :: rest => max operand.widest (widestSteps rest)
termination_by structural steps => steps

/-- The same for some arguments. -/
def widestArgs : List Expr → Nat
  | [] => 0
  | arg :: rest => max arg.widest (widestArgs rest)
termination_by structural args => args

end

theorem opening_le (e : Expr) : e.opening ≤ 1 := by
  cases e <;> simp [opening]

@[simp] theorem opening_withSpan (span : Span) (e : Expr) :
    (e.withSpan span).opening = e.opening := by
  cases e <;> rfl

@[simp] theorem levels_withSpan (span : Span) (e : Expr) :
    (e.withSpan span).levels = e.levels := by
  cases e <;> simp [withSpan, levels]

section

variable {steps : List (Step Expr)} {args : List Expr} {n : Nat}

theorem levelsSteps_le_iff : levelsSteps steps ≤ n ↔ ∀ step ∈ steps, step.operand.levels < n := by
  induction steps with
  | nil => simp [levelsSteps]
  | cons step rest ih => rw [levelsSteps, Nat.max_le, ih, List.forall_mem_cons, Nat.succ_le_iff]

/-- What starts a run is written on the level of the run, or on one more. -/
theorem levels_run_le_iff {span : Span} {first : Expr} :
    (run span first steps).levels ≤ n ↔
      first.levels + first.opening ≤ n ∧ ∀ step ∈ steps, step.operand.levels < n := by
  rw [levels, Nat.max_le, levelsSteps_le_iff]

theorem levelsArgs_le_iff : levelsArgs args ≤ n ↔ ∀ arg ∈ args, arg.levels < n := by
  induction args with
  | nil => simp [levelsArgs]
  | cons arg rest ih => rw [levelsArgs, Nat.max_le, ih, List.forall_mem_cons, Nat.succ_le_iff]

theorem widestSteps_le_iff :
    widestSteps steps ≤ n ↔ ∀ step ∈ steps, step.operand.widest ≤ n := by
  induction steps with
  | nil => simp [widestSteps]
  | cons step rest ih => rw [widestSteps, Nat.max_le, ih, List.forall_mem_cons]

theorem widestArgs_le_iff : widestArgs args ≤ n ↔ ∀ arg ∈ args, arg.widest ≤ n := by
  induction args with
  | nil => simp [widestArgs]
  | cons arg rest ih => rw [widestArgs, Nat.max_le, ih, List.forall_mem_cons]

theorem needSteps_le_iff :
    needSteps steps ≤ n ↔ ∀ step ∈ steps, 1 + step.operand.need ≤ n := by
  induction steps with
  | nil => simp [needSteps]
  | cons step rest ih => rw [needSteps, Nat.max_le, ih, List.forall_mem_cons]

end

/-- A level that is opened makes up for as many values as calls may have before an argument. -/
theorem add_le_of_lt {k l m i need : Nat} (hi : i ≤ k) (h : need ≤ 1 + k * l) (lt : l < m) :
    i + need ≤ 1 + k * m := by
  have grown : k * (l + 1) ≤ k * m := Nat.mul_le_mul_left k lt
  rw [Nat.mul_succ] at grown
  omega

/-- An expression in which calls have up to `k + 1` arguments needs `k` values for each level, and
one. -/
theorem need_le {e : Expr} {k : Nat} (binary : 1 ≤ k) (h : e.widest ≤ k + 1) :
    e.need ≤ 1 + k * e.levels := by
  induction e using Expr.induction with
  | literal | var => exact Nat.le_add_right 1 _
  | neg _ _ operand ih =>
    have := add_le_of_lt (Nat.zero_le k) (ih h) (Nat.lt_succ_self operand.levels)
    rwa [Nat.zero_add] at this
  | run _ first steps ih ihs =>
    obtain ⟨here, later⟩ := Nat.max_le.mp h
    obtain ⟨first_le, steps_lt⟩ := levels_run_le_iff.mp (Nat.le_refl _)
    have first_le := Nat.le_of_add_right_le first_le
    rw [need]
    refine Nat.max_le.mpr ⟨?_, needSteps_le_iff.mpr fun step hs => ?_⟩
    · exact Nat.le_trans (ih here) (Nat.add_le_add_left (Nat.mul_le_mul_left k first_le) 1)
    · have narrow := widestSteps_le_iff.mp later step hs
      exact add_le_of_lt binary (ihs step hs narrow) (steps_lt step hs)
  | call _ _ args ih =>
    obtain ⟨length, later⟩ := Nat.max_le.mp h
    rw [need, levels]
    refine Nat.max_le.mpr ⟨Nat.le_add_right 1 _, needArgs_le_iff.mpr fun i hi => ?_⟩
    have listed := List.getElem_mem hi
    exact add_le_of_lt (by omega) (ih _ listed (widestArgs_le_iff.mp later _ listed))
      (levelsArgs_le_iff.mp (Nat.le_refl _) _ listed)

end Expr

/-! ## Reading -/

/-- What is said of an answer: it takes up no more levels than there are. -/
def Phrase.Leveled : (phrase : Phrase) → Except Diagnostic phrase.Answer → Prop
  | _, error _ => True
  | expr levels _, ok e => e.levels < levels
  | operand levels, ok e => e.levels + e.opening ≤ levels
  | steps levels _, ok run => ∀ step ∈ run, step.operand.levels < levels
  | call levels _ _, ok e => e.levels + e.opening ≤ levels
  | args levels _ _, ok (list, _) => ∀ arg ∈ list, arg.levels < levels

theorem Expr.levels_chain {first : Expr} {steps : List (Step Expr)} {n : Nat}
    (h : first.levels + first.opening ≤ n) (hs : ∀ step ∈ steps, step.operand.levels < n) :
    (chain first steps).levels < n + 1 := by
  cases steps with
  | nil => exact Nat.lt_succ_of_le (Nat.le_of_add_right_le h)
  | cons step rest =>
    obtain ⟨span, e⟩ := chain_cons first step rest
    rw [e]
    exact Nat.lt_succ_of_le (levels_run_le_iff.mpr ⟨h, hs⟩)

/-- A sub-expression is read on a level of its own, whatever it is the start of. -/
theorem Expr.levels_add_opening_le {e : Expr} {n : Nat} (h : e.levels < n) :
    e.levels + e.opening ≤ n := by
  have := e.opening_le
  omega

/-- What is read takes up no more levels than there are. -/
theorem Reads.leveled {scope : Scope} {phrase : Phrase} {c last : Cursor}
    {answer : Except Diagnostic phrase.Answer} (h : Reads scope phrase c answer last) :
    phrase.Leveled answer := by
  induction h with
  | tooDeep | exprFails | unbound | parenFails | parenOpen | closed | noOperand | stepFails
  | callUnopened | callMissing | callSurplus | callFails | callTooFew | argFails | argSurplus
  | argOpen => trivial
  | @expr _ _ _ _ _ _ answer _ _ ih₁ ih₂ =>
    cases answer with
    | error => trivial
    | ok => exact Expr.levels_chain ih₁ ih₂
  | number | constant | var => exact Nat.zero_le _
  | @function _ _ _ _ answer _ _ _ ih =>
    cases answer with
    | error => trivial
    | ok => exact ih
  | paren _ _ _ ih =>
    rw [Phrase.Leveled, Expr.levels_withSpan, Expr.opening_withSpan]
    exact Expr.levels_add_opening_le ih
  | @minus _ _ _ answer _ _ ih =>
    cases answer with
    | error => trivial
    | ok => exact ih
  | @plus _ _ _ answer _ _ ih =>
    cases answer with
    | error => trivial
    | ok =>
      simp only [Except.map, Phrase.Leveled, Expr.levels_withSpan, Expr.opening_withSpan]
      exact Expr.levels_add_opening_le ih
  | stop => exact List.forall_mem_nil _
  | @step _ _ _ _ _ _ _ answer _ _ _ _ ih₁ ih₂ =>
    cases answer with
    | error => trivial
    | ok => exact List.forall_mem_cons.mpr ⟨ih₁, ih₂⟩
  | callEmpty => exact Nat.zero_le _
  | call _ _ _ _ _ ih => exact Expr.levelsArgs_le_iff.mpr ih
  | @arg _ _ _ _ _ _ _ answer _ _ _ _ ih₁ ih₂ =>
    cases answer with
    | error => trivial
    | ok => exact List.forall_mem_cons.mpr ⟨ih₁, ih₂⟩
  | argLast _ _ ih => exact List.forall_mem_singleton.mpr ih

/-- The expression of a text takes up no more levels than may be open. -/
theorem levels_lt_of_parse {scope : Scope} {maxLevels : Nat} {source : String} {e : Expr}
    (h : parse scope maxLevels source = ok e) : e.levels < maxLevels := by
  obtain ⟨-, _, reads, -⟩ := Parser.parse_eq_ok_iff.mp h
  exact reads.leveled

/-- How many values may be on the stack for an expression that is read with a number of levels. -/
def Expr.stackBound (e : Expr) (maxLevels : Nat) : Nat :=
  1 + (max 2 e.widest - 1) * (maxLevels - 1)

theorem Expr.need_le_stackBound {e : Expr} {maxLevels : Nat} (h : e.levels < maxLevels) :
    e.need ≤ e.stackBound maxLevels := by
  have narrow : e.widest ≤ max 2 e.widest - 1 + 1 := by omega
  have fewer : e.levels ≤ maxLevels - 1 := by omega
  calc e.need
      ≤ 1 + (max 2 e.widest - 1) * e.levels := need_le (by omega) narrow
    _ ≤ e.stackBound maxLevels := Nat.add_le_add_left (Nat.mul_le_mul_left _ fewer) 1

/-- An expression that is read with a number of levels needs no more of the stack than the levels
and its widest call allow for, folded or not: its program is no deeper, and if so much room may be
had, it has a program. If no call has more than two arguments, the program is no deeper than
levels may be open. -/
theorem nesting_bounds_depth {scope : Scope} {maxLevels : Nat} {source : String} {e : Expr}
    (h : parse scope maxLevels source = ok e) (options : Options) :
    (∀ p, Program.ofExpr (options.prepare e) = ok p →
      p.depth ≤ e.stackBound maxLevels ∧ (e.widest ≤ 2 → p.depth ≤ maxLevels)) ∧
    (e.stackBound maxLevels ≤ Program.capacity →
      ∃ p, Program.ofExpr (options.prepare e) = ok p) := by
  have levels := levels_lt_of_parse h
  have accepted := options.accepted_prepare (accepted_of_parse h)
  have bounded : (options.prepare e).need ≤ e.stackBound maxLevels :=
    Nat.le_trans (options.load_prepare e).values (Expr.need_le_stackBound levels)
  constructor
  · intro p laid
    rw [((Program.ofExpr_eq_ok_iff accepted).mp laid).2]
    refine ⟨bounded, fun binary => Nat.le_trans bounded ?_⟩
    rw [Expr.stackBound, Nat.max_eq_left binary]
    omega
  · intro room
    exact ⟨_, (Program.ofExpr_eq_ok_iff accepted).mpr ⟨Nat.le_trans bounded room, rfl⟩⟩

/-- A power in the last of three arguments, with a difference in parentheses on the right of it. -/
theorem nesting_bounds_depth_wide :
    ∃ e p, parse (Scope.builtin.withCell "x" "a") 5 "max(1, 2, x ^ (3 - x))" = ok e ∧
      e.stackBound 5 = 9 ∧ Program.ofExpr e = ok p ∧ p.depth ≤ 9 := by
  have wide : (parse (Scope.builtin.withCell "x" "a") 5 "max(1, 2, x ^ (3 - x))").toOption.map
      Expr.widest = some 3 := by decide +kernel
  cases parsed : parse (Scope.builtin.withCell "x" "a") 5 "max(1, 2, x ^ (3 - x))" with
  | error =>
    rw [parsed] at wide
    cases wide
  | ok e =>
    rw [parsed] at wide
    have nine : e.stackBound 5 = 9 := by
      rw [Expr.stackBound, Option.some.inj wide]
      rfl
    obtain ⟨bounded, fits⟩ := nesting_bounds_depth parsed ⟨4096, 5, false⟩
    obtain ⟨p, laid⟩ := fits (by rw [nine]; decide)
    exact ⟨e, p, rfl, nine, laid, nine ▸ (bounded p laid).1⟩

end Formula
