import Formula.Proofs.Checked.Read
import Formula.Proofs.Parses
import Formula.Proofs.Folding

/-!
# Compiling with checks

Compiling in which everything that could fail is checked (`Checked.compile?`): besides what is
checked when a text is read, a function is only computed at a number of arguments that it accepts,
no instruction takes more values than leave one when it has put back its own, and all together
leave one. No check ever fails, and what is compiled is what is compiled without them
(`Checked.compile?_eq`).
-/

namespace Formula

open Except (ok error)

namespace Checked

/-! ## Reading a text -/

/-- Reads a text as one expression. -/
def parse? (scope : Scope) (maxLevels : Nat) (source : String) :
    Option (Except Diagnostic Expr) := do
  let (first, c) ← peek? source (.ofString source)
  if first.isFinish then some (error ⟨.emptyExpression, first.span⟩)
  else
    let (answer, c) ← read? source scope maxLevels 0 c
    match answer with
    | error d => some (error d)
    | ok e =>
      let (token, _) ← next? source c
      match token.kind with
      | .finish => some (ok e)
      | .closeParen => some (error ⟨.unmatchedParen, token.span⟩)
      | _ => some (error (token.refuse .trailingInput))

theorem parse?_eq (scope : Scope) (maxLevels : Nat) (source : String) :
    parse? scope maxLevels source = some (parse scope maxLevels source) := by
  obtain ⟨answer, _, parses⟩ := exists_parses scope maxLevels (.ofString source)
  have inside := Cursor.StandsIn.start source
  rw [parses.parse_ofString, parse?, peek?_eq inside]
  cases parses with
  | empty finish => simp [Cursor.fst_peek, finish]
  | fails more reads => simp [Cursor.fst_peek, more, read?_eq reads inside.peek]
  | @whole e last more reads finish =>
    simp only [Option.bind_eq_bind, Option.bind_some, Cursor.fst_peek, more,
      read?_eq reads inside.peek, next?_eq (reads.standsIn inside.peek)]
    cases kind : last.next.1.kind <;> simp_all [Token.isFinish, Token.Kind.isFinish]
  | @more e last more reads follows =>
    simp only [Option.bind_eq_bind, Option.bind_some, Cursor.fst_peek, more,
      read?_eq reads inside.peek, next?_eq (reads.standsIn inside.peek)]
    cases kind : last.next.1.kind <;>
      simp_all [Token.isFinish, Token.Kind.isFinish, Token.Kind.unread, Token.refuse]

/-! ## Folding -/

/-- A call, computed if all arguments are numbers, of which there must be as many as the function
accepts. -/
def call? (span : Span) (func : Func) (args : List Expr) : Option Expr :=
  match Expr.literals? args with
  | some values => (func.value? values).map (.literal span)
  | none => some (.call span func args)

mutual

/-- The same expression with what depends on no cell computed. -/
def fold? : Expr → Option Expr
  | .literal span value => some (.literal span value)
  | .var span name cell => some (.var span name cell)
  | .neg _ sign operand => (fold? operand).map (Expr.negate sign)
  | .run _ first steps => do
    let first ← fold? first
    let steps ← foldSteps? steps
    some (Expr.combine first steps)
  | .call span func args => do
    let args ← foldArgs? args
    call? span func args
termination_by structural e => e

/-- Folds the operands of some steps. -/
def foldSteps? : List (Step Expr) → Option (List (Step Expr))
  | [] => some []
  | ⟨op, span, operand⟩ :: rest => do
    let operand ← fold? operand
    let rest ← foldSteps? rest
    some (⟨op, span, operand⟩ :: rest)
termination_by structural steps => steps

/-- Folds some arguments. -/
def foldArgs? : List Expr → Option (List Expr)
  | [] => some []
  | arg :: rest => do
    let arg ← fold? arg
    let rest ← foldArgs? rest
    some (arg :: rest)
termination_by structural args => args

end

theorem call?_eq {func : Func} {args : List Expr}
    (accepted : func.arity.accepts args.length = true) (span : Span) :
    call? span func args = some (Expr.apply span func args) := by
  unfold call? Expr.apply
  cases literals : Expr.literals? args with
  | none => rfl
  | some values =>
    obtain ⟨value, hv⟩ := Func.exists_value? (Expr.length_literals? literals ▸ accepted)
    simp only [Option.bind_some, hv, Option.map_some]

theorem foldSteps?_eq {steps : List (Step Expr)}
    (h : ∀ step ∈ steps, fold? step.operand = some step.operand.fold) :
    foldSteps? steps = some (Expr.foldSteps steps) := by
  induction steps with
  | nil => rfl
  | cons step rest ih =>
    obtain ⟨here, later⟩ := List.forall_mem_cons.mp h
    rw [foldSteps?, here, ih later]
    rfl

theorem foldArgs?_eq {args : List Expr} (h : ∀ arg ∈ args, fold? arg = some arg.fold) :
    foldArgs? args = some (Expr.foldArgs args) := by
  induction args with
  | nil => rfl
  | cons arg rest ih =>
    obtain ⟨here, later⟩ := List.forall_mem_cons.mp h
    rw [foldArgs?, here, ih later]
    rfl

/-- Folding computes functions at numbers of arguments that they accept only, as a call that is
folded has as many arguments as it had. -/
theorem fold?_eq {e : Expr} (h : e.Accepted) : fold? e = some e.fold := by
  induction h with
  | literal | var => rfl
  | neg _ ih =>
    rw [fold?, ih]
    rfl
  | run _ _ ih ihs =>
    rw [fold?, ih, foldSteps?_eq ihs]
    rfl
  | call accepted _ ih =>
    rw [fold?, foldArgs?_eq ih]
    refine call?_eq ?_ _
    rw [Expr.foldArgs_eq_map, List.length_map]
    exact accepted

/-- What is laid out for an expression under some options. -/
def prepare? (options : Options) (e : Expr) : Option Expr :=
  if options.fold then fold? e else some e

theorem prepare?_eq (options : Options) {e : Expr} (h : e.Accepted) :
    prepare? options e = some (options.prepare e) := by
  unfold prepare? Options.prepare
  split
  · exact fold?_eq h
  · rfl

/-! ## Laying out -/

/-- The height of the stack after instructions that find `height` values there, and the largest
height so far. An instruction may not take more values than there are with the one it puts back. -/
def peak? (height most : Nat) : List Placed → Option (Except Diagnostic (Nat × Nat))
  | [] => some (ok (height, most))
  | placed :: rest =>
    if placed.instr.pops ≤ height + 1 then
      let after := height + 1 - placed.instr.pops
      if Program.capacity < after then some (error ⟨.nestingTooDeep, placed.span⟩)
      else peak? after (Nat.max most after) rest
    else none

/-- The program that computes an expression, which must leave one value on the stack. -/
def ofExpr? (e : Expr) : Option (Except Diagnostic Program) := do
  match ← peak? 0 0 e.instructions with
  | error d => some (error d)
  | ok (height, depth) =>
    if height = 1 then some (ok ⟨e.instructions.map Placed.instr, depth⟩) else none

/-- Heights are counted right for instructions that run on a stack. -/
theorem peak?_eq {store : Store} {code : List Placed} {stack after : List Float}
    (h : Program.exec? store (code.map Placed.instr) stack = some after) (most : Nat) :
    peak? stack.length most code =
      some ((Program.peak stack.length most code).map (after.length, ·)) := by
  induction code generalizing stack most with
  | nil =>
    cases h
    rfl
  | cons placed rest ih =>
    obtain ⟨middle, here, later⟩ := Option.bind_eq_some_iff.mp h
    obtain ⟨enough, length⟩ := Instr.length_of_exec? here
    have height : stack.length + 1 - placed.instr.pops = middle.length := by omega
    rw [peak?, if_pos (Nat.le_succ_of_le enough), Program.peak]
    simp only [height]
    split
    · rfl
    · exact ih later _

theorem ofExpr?_eq {e : Expr} (h : e.Accepted) : ofExpr? e = some (Program.ofExpr e) := by
  have heights := peak?_eq (Expr.exec?_code (fun _ => 0) h []) 0
  rw [List.length_nil] at heights
  rw [ofExpr?, heights, Program.ofExpr]
  cases Program.peak 0 0 e.instructions with
  | error => rfl
  | ok => rfl

/-! ## Compiling -/

/-- The program of a text. -/
def compile? (options : Options) (scope : Scope) (source : String) :
    Option (Except Diagnostic Program) :=
  if options.maxLength < source.utf8ByteSize then
    some (error ⟨.textTooLong, Span.point options.maxLength⟩)
  else do
    match ← parse? scope options.maxLevels source with
    | error d => some (error d)
    | ok e =>
      let e ← prepare? options e
      ofExpr? e

/-- No check fails when a text is compiled. -/
theorem compile?_eq (options : Options) (scope : Scope) (source : String) :
    compile? options scope source = some (compile options scope source) := by
  unfold compile? compile
  split
  · rfl
  rw [parse?_eq]
  cases parsed : parse scope options.maxLevels source with
  | error => rfl
  | ok e =>
    have accepted := accepted_of_parse parsed
    simp only [Option.bind_eq_bind, Option.bind_some, prepare?_eq options accepted]
    exact ofExpr?_eq (options.accepted_prepare accepted)

end Checked

end Formula
