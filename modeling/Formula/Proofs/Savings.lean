import Formula.Proofs.Need

/-!
# Folding only saves

What an expression takes is its `Load`: its nodes, its instructions, the values it needs on
the stack, and the names it reads, in their order and each as often as it is read. The load
of an expression is made of the loads of its parts, and grows with each of them.

Folding makes no part of the load larger and keeps the names (`Expr.load_fold`): numbers are
put in the place of negations, beginnings of runs and calls, which take at least as much as a
number and, being without variables, read no name. A text that has a program without folding
has therefore one with folding, and it takes no more (`fold_saves`).
-/

namespace Formula

open Except (ok error)

/-- What an expression takes, and what it reads. -/
structure Load where
  nodes : Nat
  instructions : Nat
  /-- The largest number of values on the stack. -/
  values : Nat
  /-- The names that are read, each as often as it is read. -/
  names : List String

namespace Load

/-- No part of the load is larger, and the same names are read. -/
structure Within (a b : Load) : Prop where
  nodes : a.nodes ≤ b.nodes
  instructions : a.instructions ≤ b.instructions
  values : a.values ≤ b.values
  names : a.names = b.names

/-- The load of a number. -/
def number : Load :=
  ⟨1, 1, 1, []⟩

/-- The load of a negation. -/
def neg (operand : Load) : Load :=
  { operand with nodes := 1 + operand.nodes, instructions := operand.instructions + 1 }

/-- The load of a run. -/
def run (first steps : Load) : Load :=
  ⟨1 + first.nodes + steps.nodes, first.instructions + steps.instructions,
    max first.values steps.values, first.names ++ steps.names⟩

/-- The load of a step and those after it. -/
def step (operand rest : Load) : Load :=
  ⟨operand.nodes + rest.nodes, operand.instructions + (rest.instructions + 1),
    max (1 + operand.values) rest.values, operand.names ++ rest.names⟩

/-- The load of a call. -/
def call (args : Load) : Load :=
  { args with
    nodes := 1 + args.nodes
    instructions := args.instructions + 1
    values := max 1 args.values }

/-- The load of an argument and those after it. -/
def arg (arg rest : Load) : Load :=
  ⟨arg.nodes + rest.nodes, arg.instructions + rest.instructions,
    max arg.values (1 + rest.values), arg.names ++ rest.names⟩

namespace Within

variable {a b c d : Load}

theorem refl (a : Load) : a.Within a :=
  ⟨Nat.le_refl _, Nat.le_refl _, Nat.le_refl _, rfl⟩

theorem trans (h : a.Within b) (h' : b.Within c) : a.Within c :=
  ⟨Nat.le_trans h.nodes h'.nodes, Nat.le_trans h.instructions h'.instructions,
    Nat.le_trans h.values h'.values, h.names.trans h'.names⟩

theorem neg (h : a.Within b) : a.neg.Within b.neg := by
  obtain ⟨nodes, instructions, values, names⟩ := h
  constructor <;> simp only [Load.neg] <;> omega

theorem run (h : a.Within b) (h' : c.Within d) : (a.run c).Within (b.run d) := by
  obtain ⟨nodes, instructions, values, names⟩ := h
  obtain ⟨nodes', instructions', values', names'⟩ := h'
  constructor <;> simp only [Load.run, names, names'] <;> omega

theorem step (h : a.Within b) (h' : c.Within d) : (a.step c).Within (b.step d) := by
  obtain ⟨nodes, instructions, values, names⟩ := h
  obtain ⟨nodes', instructions', values', names'⟩ := h'
  constructor <;> simp only [Load.step, names, names'] <;> omega

theorem call (h : a.Within b) : a.call.Within b.call := by
  obtain ⟨nodes, instructions, values, names⟩ := h
  constructor <;> simp only [Load.call] <;> omega

theorem arg (h : a.Within b) (h' : c.Within d) : (a.arg c).Within (b.arg d) := by
  obtain ⟨nodes, instructions, values, names⟩ := h
  obtain ⟨nodes', instructions', values', names'⟩ := h'
  constructor <;> simp only [Load.arg, names, names'] <;> omega

/-- Two numbers at the start of a run take more than one number in their place. -/
theorem number_run (rest : Load) :
    (number.run rest).Within (number.run (number.step rest)) := by
  constructor <;> simp only [number, Load.run, Load.step, List.nil_append] <;> omega

end Within

end Load

/-- A call reads no cell. -/
theorem Func.reads?_instr (func : Func) (count : Nat) : (func.instr count).reads? = none := by
  obtain ⟨name, primitive⟩ := func
  cases primitive <;> rfl

namespace Expr

/-! ## The load of an expression -/

/-- The names that some instructions read. -/
def names (code : List Placed) : List String :=
  code.filterMap fun placed => placed.instr.reads?

def load (e : Expr) : Load :=
  ⟨e.size, e.instructions.length, e.need, names e.instructions⟩

def loadSteps (steps : List (Step Expr)) : Load :=
  ⟨sizeSteps steps, (stepInstructions steps).length, needSteps steps,
    names (stepInstructions steps)⟩

def loadArgs (args : List Expr) : Load :=
  ⟨sizeArgs args, (argInstructions args).length, needArgs args, names (argInstructions args)⟩

attribute [local simp] load loadSteps loadArgs names size sizeSteps sizeArgs instructions
  stepInstructions argInstructions need needSteps needArgs Func.reads?_instr

theorem load_literal (span : Span) (value : Float) : (literal span value).load = .number := by
  simp [Load.number, Instr.reads?]

theorem load_neg (span sign : Span) (operand : Expr) :
    (neg span sign operand).load = operand.load.neg := by
  simp [Load.neg, Instr.reads?]

theorem load_run (span : Span) (first : Expr) (steps : List (Step Expr)) :
    (run span first steps).load = first.load.run (loadSteps steps) := by
  simp [Load.run]

theorem loadSteps_cons (step : Step Expr) (rest : List (Step Expr)) :
    loadSteps (step :: rest) = step.operand.load.step (loadSteps rest) := by
  simp [Load.step, Instr.reads?]

theorem load_call (span : Span) (func : Func) (args : List Expr) :
    (call span func args).load = (loadArgs args).call := by
  simp [Load.call]

theorem loadArgs_cons (arg : Expr) (rest : List Expr) :
    loadArgs (arg :: rest) = arg.load.arg (loadArgs rest) := by
  simp [Load.arg]

theorem load_chain (first : Expr) (step : Step Expr) (rest : List (Step Expr)) :
    (chain first (step :: rest)).load = first.load.run (loadSteps (step :: rest)) := by
  obtain ⟨span, e⟩ := chain_cons first step rest
  rw [e, load_run]

theorem load_of_literal? {e : Expr} {value : Float} (h : e.literal? = some value) :
    e.load = .number := by
  cases e with
  | literal => exact load_literal _ _
  | var | neg | run | call => cases h

/-! ## Folding -/

theorem load_negate (sign : Span) (operand : Expr) :
    (negate sign operand).load.Within operand.load.neg := by
  unfold negate
  split
  · rw [load_literal, load_literal]
    constructor <;> simp [Load.number, Load.neg]
  · rw [load_neg]
    exact .refl _

theorem load_combine (first : Expr) (steps : List (Step Expr)) :
    (combine first steps).load.Within (first.load.run (loadSteps steps)) := by
  induction steps generalizing first with
  | nil => constructor <;> simp [combine, Load.run]
  | cons step rest ih =>
    rw [combine]
    split
    · rename_i x y hx hy
      have combined := ih (literal (first.span.through step.operand.span) (step.op.apply x y))
      rw [load_literal] at combined
      rw [load_of_literal? hx, loadSteps_cons, load_of_literal? hy]
      exact combined.trans (.number_run _)
    · rw [load_chain]
      exact .refl _

/-- Numbers read no name. -/
theorem names_of_literals? {args : List Expr} {values : List Float}
    (h : literals? args = some values) : (loadArgs args).names = [] := by
  induction args generalizing values with
  | nil => rfl
  | cons arg rest ih =>
    rw [literals?] at h
    split at h
    · rename_i value values here later
      rw [loadArgs_cons, load_of_literal? here]
      exact ih later
    · cases h

theorem load_apply (span : Span) (func : Func) (args : List Expr) :
    (apply span func args).load.Within (loadArgs args).call := by
  unfold apply
  split
  · rename_i value h
    obtain ⟨values, literals, -⟩ := Option.bind_eq_some_iff.mp h
    rw [load_literal]
    constructor
    · exact Nat.le_add_right _ _
    · exact Nat.le_add_left _ _
    · exact Nat.le_max_left _ _
    · exact (names_of_literals? literals).symm
  · rw [load_call]
    exact .refl _

theorem load_foldSteps {steps : List (Step Expr)}
    (h : ∀ step ∈ steps, step.operand.fold.load.Within step.operand.load) :
    (loadSteps (foldSteps steps)).Within (loadSteps steps) := by
  induction steps with
  | nil => exact .refl _
  | cons step rest ih =>
    obtain ⟨here, later⟩ := List.forall_mem_cons.mp h
    rw [foldSteps, loadSteps_cons, loadSteps_cons]
    exact here.step (ih later)

theorem load_foldArgs {args : List Expr} (h : ∀ arg ∈ args, arg.fold.load.Within arg.load) :
    (loadArgs (foldArgs args)).Within (loadArgs args) := by
  induction args with
  | nil => exact .refl _
  | cons arg rest ih =>
    obtain ⟨here, later⟩ := List.forall_mem_cons.mp h
    rw [foldArgs, loadArgs_cons, loadArgs_cons]
    exact here.arg (ih later)

/-- A folded expression takes no more, and reads the same names. -/
theorem load_fold (e : Expr) : e.fold.load.Within e.load := by
  induction e using Expr.induction with
  | literal | var => exact .refl _
  | neg _ sign operand ih =>
    rw [fold, load_neg]
    exact (load_negate sign operand.fold).trans ih.neg
  | run _ first steps ih ihs =>
    rw [fold, load_run]
    exact (load_combine first.fold _).trans (ih.run (load_foldSteps ihs))
  | call span func args ih =>
    rw [fold, load_call]
    exact (load_apply span func _).trans (load_foldArgs ih).call

end Expr

theorem Options.load_prepare (options : Options) (e : Expr) :
    (options.prepare e).load.Within e.load := by
  unfold prepare
  split
  · exact e.load_fold
  · exact .refl _

namespace Program

/-- The names a program reads, from the names its instructions read. -/
theorem names_eq_foldl (p : Program) :
    p.names = (p.code.filterMap Instr.reads?).foldl
      (fun found name => if name ∈ found then found else found ++ [name]) [] := by
  rw [names, List.foldl_filterMap]
  congr 1
  funext found instr
  cases instr.reads? <;> rfl

/-- A program takes no more than another one and reads the same names. -/
structure Within (p q : Program) : Prop where
  size : p.size ≤ q.size
  depth : p.depth ≤ q.depth
  names : p.names = q.names

/-- With its constants folded an expression still has a program. -/
theorem ofExpr_fold {e : Expr} {p : Program} (accepted : e.Accepted) (h : ofExpr e = ok p) :
    ∃ q, ofExpr e.fold = ok q ∧ q.Within p := by
  obtain ⟨room, rfl⟩ := (ofExpr_eq_ok_iff accepted).mp h
  have saved := e.load_fold
  refine ⟨⟨e.fold.code, e.fold.need⟩, ?_, ?_, saved.values, ?_⟩
  · exact (ofExpr_eq_ok_iff accepted.fold).mpr ⟨Nat.le_trans saved.values room, rfl⟩
  · simpa [Expr.code, Program.size, Expr.load] using saved.instructions
  · have same := saved.names
    simp only [Expr.load, Expr.names] at same
    simp only [names_eq_foldl, Expr.code, List.filterMap_map, Function.comp_def, same]

end Program

/-- Folding only helps: an expression with a program has one when it is folded, which has no
more instructions, is no deeper and reads the same names in the same order; it has no more
nodes; and a text that has a program without folding has one with folding. -/
theorem fold_saves :
    (∀ (e : Expr) (p : Program), e.Accepted → Program.ofExpr e = ok p →
      ∃ q, Program.ofExpr e.fold = ok q ∧ q.Within p) ∧
    (∀ e : Expr, e.Accepted → e.fold.size ≤ e.size) ∧
    ∀ (options : Options) (scope : Scope) (source : String) (p : Program),
      compile { options with fold := false } scope source = ok p →
      ∃ q, compile { options with fold := true } scope source = ok q ∧ q.Within p := by
  refine ⟨fun e p accepted h => Program.ofExpr_fold accepted h, fun e _ => e.load_fold.nodes, ?_⟩
  intro options scope source p h
  obtain ⟨short, e, parsed, laid⟩ := compile_eq_ok_iff.mp h
  obtain ⟨q, folded, within⟩ := Program.ofExpr_fold (accepted_of_parse parsed) laid
  exact ⟨q, compile_eq_ok_iff.mpr ⟨short, e, parsed, folded⟩, within⟩

/-- Of the eight instructions for this text folding leaves three. -/
theorem fold_saves_max :
    ∃ p q, compile { fold := false } (Scope.builtin.bind "x" (.cell "x"))
        "x - max(1, 2 * 3, 4)" = ok p ∧
      compile { fold := true } (Scope.builtin.bind "x" (.cell "x")) "x - max(1, 2 * 3, 4)" = ok q ∧
      p.size = 8 ∧ q.size = 3 ∧ q.Within p := by
  have eight : ((compile { fold := false } (Scope.builtin.bind "x" (.cell "x"))
      "x - max(1, 2 * 3, 4)").map Program.size).toOption = some 8 := by decide +kernel
  have three : ((compile { fold := true } (Scope.builtin.bind "x" (.cell "x"))
      "x - max(1, 2 * 3, 4)").map Program.size).toOption = some 3 := by decide +kernel
  obtain ⟨p, h, size⟩ := Program.exists_of_map eight
  obtain ⟨q, h', size'⟩ := Program.exists_of_map three
  obtain ⟨q', folded, within⟩ := fold_saves.2.2 {} _ _ p h
  cases h'.symm.trans folded
  exact ⟨p, q, h, h', size, size', within⟩

end Formula
