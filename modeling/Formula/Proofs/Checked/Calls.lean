import Formula.Proofs.Checked.Compile
import Formula.Proofs.Correspondence
import Formula.Proofs.Safety

/-!
# Calls with as many arguments as are accepted

A call of a program is a call of a function that is bound in the scope, with as many arguments as
the function accepts (`Instr.Callable`). This is so of what is read (`Derives.callable`), and
folding adds numbers only (`Expr.mem_code_of_fold`). On the machine that is picked for a program a
call finds its arguments, and what it puts on the stack is the value of the function at them
(`Program.CallsAccepted`).

`compile_checked` says this together with what was shown of compiling: no check fails.
-/

namespace Formula

open Except (ok error)

/-- Whether an instruction calls a function. -/
def Instr.isCall : Instr → Bool
  | call1 _ _ | call2 _ _ | callN _ _ _ => true
  | _ => false

/-- If the instruction is a call, it is one of a function of the scope, with a number of arguments
that the function accepts. -/
def Instr.Callable (scope : Scope) (instr : Instr) : Prop :=
  instr.isCall = true → ∃ (func : Func) (count : Nat),
    scope.resolve func.name = some (.function func.primitive) ∧
      func.arity.accepts count = true ∧ instr = func.instr count

theorem Instr.callable_of_isCall {scope : Scope} {instr : Instr} (h : instr.isCall = false) :
    instr.Callable scope := by
  intro call
  rw [h] at call
  cases call

/-! ## Reading -/

/-- The calls of a formula have as many arguments as are accepted. -/
theorem Derives.callable {scope : Scope} {levels : Nat} {layer : Layer} {ts : List Token} {t : Tree}
    (h : Derives scope levels layer ts t) : ∀ instr ∈ t.code, instr.Callable scope := by
  induction h with
  | ofProduct _ ih | ofSigned _ ih | ofPower _ ih | ofAtom _ ih => exact ih
  | sum _ _ _ _ ih₁ ih₂ | product _ _ _ _ ih₁ ih₂ | power _ _ _ ih₁ ih₂ =>
    rw [Tree.code]
    refine List.forall_mem_append.mpr ⟨ih₁, List.forall_mem_append.mpr ⟨ih₂, ?_⟩⟩
    exact List.forall_mem_singleton.mpr (Instr.callable_of_isCall rfl)
  | minus _ _ ih =>
    rw [Tree.code]
    refine List.forall_mem_append.mpr ⟨ih, ?_⟩
    exact List.forall_mem_singleton.mpr (Instr.callable_of_isCall rfl)
  | plus _ _ ih => exact ih
  | number | constant | var => exact List.forall_mem_singleton.mpr (Instr.callable_of_isCall rfl)
  | paren _ _ _ ih => exact ih
  | callEmpty _ found _ _ accepted =>
    exact List.forall_mem_singleton.mpr fun _ => ⟨⟨_, _⟩, 0, found, accepted, rfl⟩
  | @call _ _ _ _ _ args _ _ found _ _ _ _ accepted ih =>
    rw [Tree.code, Tree.codeArgs_eq_flatMap, List.length_map]
    refine List.forall_mem_append.mpr ⟨fun instr hi => ?_, List.forall_mem_singleton.mpr fun _ =>
      ⟨⟨_, _⟩, args.length, found, accepted, rfl⟩⟩
    obtain ⟨t, ht, hi⟩ := List.mem_flatMap.mp hi
    obtain ⟨arg, ha, rfl⟩ := List.mem_map.mp ht
    exact ih arg ha instr hi

theorem callable_of_parse {scope : Scope} {maxLevels : Nat} {source : String} {e : Expr}
    (h : parse scope maxLevels source = ok e) : ∀ instr ∈ e.code, instr.Callable scope := by
  obtain ⟨levels, derived⟩ := derives_of_parse h
  rw [← Expr.code_tree]
  exact derived.callable

/-! ## Folding -/

namespace Expr

variable {instr : Instr} {span sign : Span} {first operand : Expr} {steps : List (Step Expr)}
  {func : Func} {args : List Expr}

theorem mem_code_neg :
    instr ∈ (neg span sign operand).code ↔ instr ∈ operand.code ∨ instr = .neg := by
  simp [code, instructions]

theorem mem_code_run : instr ∈ (run span first steps).code ↔
    instr ∈ first.code ∨ ∃ step ∈ steps, instr ∈ step.operand.code ∨ instr = .op step.op := by
  simp only [code, instructions, stepInstructions_eq_flatMap, List.map_append, List.mem_append,
    List.map_flatMap, List.mem_flatMap, List.map_singleton, List.mem_singleton]

theorem mem_code_call : instr ∈ (call span func args).code ↔
    (∃ arg ∈ args, instr ∈ arg.code) ∨ instr = func.instr args.length := by
  simp only [code, instructions, argInstructions_eq_flatMap, List.map_append, List.mem_append,
    List.map_flatMap, List.mem_flatMap, List.map_singleton, List.mem_singleton]

section

variable (other : ∀ value, instr ≠ .const value)
include other

theorem mem_code_of_negate (h : instr ∈ (negate sign operand).code) :
    instr ∈ operand.code ∨ instr = .neg := by
  unfold negate at h
  split at h
  · exact absurd (List.mem_singleton.mp h) (other _)
  · exact mem_code_neg.mp h

omit other in
theorem mem_code_of_chain (h : instr ∈ (chain first steps).code) :
    instr ∈ first.code ∨ ∃ step ∈ steps, instr ∈ step.operand.code ∨ instr = .op step.op := by
  cases steps with
  | nil => exact .inl h
  | cons step rest =>
    obtain ⟨span, e⟩ := chain_cons first step rest
    rw [e] at h
    exact mem_code_run.mp h

theorem mem_code_of_combine (h : instr ∈ (combine first steps).code) :
    instr ∈ first.code ∨ ∃ step ∈ steps, instr ∈ step.operand.code ∨ instr = .op step.op := by
  induction steps generalizing first with
  | nil => exact .inl h
  | cons step rest ih =>
    rw [combine] at h
    split at h
    · rcases ih h with h | ⟨later, hs, h⟩
      · exact absurd (List.mem_singleton.mp h) (other _)
      · exact .inr ⟨later, List.mem_cons_of_mem _ hs, h⟩
    · exact mem_code_of_chain h

theorem mem_code_of_apply (h : instr ∈ (apply span func args).code) :
    instr ∈ (Expr.call span func args).code := by
  unfold apply at h
  split at h
  · exact absurd (List.mem_singleton.mp h) (other _)
  · exact h

/-- Folding adds no instruction but numbers. -/
theorem mem_code_of_fold {e : Expr} (h : instr ∈ e.fold.code) : instr ∈ e.code := by
  induction e using Expr.induction with
  | literal | var => exact h
  | neg _ _ _ ih => exact mem_code_neg.mpr ((mem_code_of_negate other h).imp_left ih)
  | run _ _ _ ih ihs =>
    refine mem_code_run.mpr ((mem_code_of_combine other h).imp ih ?_)
    rintro ⟨step, hs, h⟩
    rw [foldSteps_eq_map] at hs
    obtain ⟨step, member, rfl⟩ := List.mem_map.mp hs
    exact ⟨step, member, h.imp_left (ihs step member)⟩
  | call _ _ _ ih =>
    rcases mem_code_call.mp (mem_code_of_apply other h) with ⟨arg, ha, h⟩ | h
    · rw [foldArgs_eq_map] at ha
      obtain ⟨arg, member, rfl⟩ := List.mem_map.mp ha
      exact mem_code_call.mpr (.inl ⟨arg, member, ih arg member h⟩)
    · rw [foldArgs_eq_map, List.length_map] at h
      exact mem_code_call.mpr (.inr h)

end

end Expr

/-- What is laid out for an expression has the instructions of the expression, and numbers. -/
theorem Options.mem_code_of_prepare (options : Options) {e : Expr} {instr : Instr}
    (other : ∀ value, instr ≠ .const value) (h : instr ∈ (options.prepare e).code) :
    instr ∈ e.code := by
  unfold Options.prepare at h
  split at h
  · exact Expr.mem_code_of_fold other h
  · exact h

theorem Options.callable_prepare (options : Options) {scope : Scope} {e : Expr}
    (h : ∀ instr ∈ e.code, instr.Callable scope) :
    ∀ instr ∈ (options.prepare e).code, instr.Callable scope := by
  intro instr hi call
  have other : ∀ value, instr ≠ .const value := by
    rintro value rfl
    cases call
  exact h instr (options.mem_code_of_prepare other hi) call

/-! ## Running -/

namespace Machine

variable {places : Nat} {m after : Machine places}

theorem eq_of_pop? {value : Float} (h : m.pop? = some (value, after)) :
    after = ⟨m.slots, m.top - 1⟩ := by
  obtain ⟨slots, top⟩ := m
  cases top with
  | zero => cases h
  | succ top =>
    obtain ⟨_, -, e⟩ := Option.map_eq_some_iff.mp h
    cases e
    rfl

theorem eq_of_take? {count : Nat} {args : List Float} (h : m.take? count = some (args, after)) :
    after = ⟨m.slots, m.top - count⟩ := by
  unfold take? at h
  split at h <;> cases h
  rfl

/-- A call takes its arguments off the stack and puts there the value of the function at them. -/
theorem Holds.call {func : Func} {args stack : List Float} {value : Float}
    (h : m.Holds (args.reverse ++ stack)) (hv : func.value? args = some value) (store : Store) :
    ∃ rest, m.take? args.length = some (args, rest) ∧
      (func.instr args.length).run? store m = rest.push? value := by
  have length : args.reverse.length = args.length := List.length_reverse
  have enough : args.length ≤ (args.reverse ++ stack).length := by
    rw [List.length_append, length]
    exact Nat.le_add_right _ _
  obtain ⟨rest, taken, -⟩ := h.take enough
  rw [List.take_left' length, List.reverse_reverse] at taken
  refine ⟨rest, taken, ?_⟩
  obtain ⟨name, primitive⟩ := func
  cases primitive with
  | unary f =>
    rcases args with _ | ⟨x, _ | _⟩ <;> cases hv
    obtain ⟨m₁, popped, -⟩ := h.pop
    have same : rest = m₁ := (eq_of_take? taken).trans (eq_of_pop? popped).symm
    rw [Func.instr, Instr.run?, popped, same]
    rfl
  | binary f =>
    rcases args with _ | ⟨x, _ | ⟨y, _ | _⟩⟩ <;> cases hv
    obtain ⟨m₁, popped, h₁⟩ := h.pop
    obtain ⟨m₂, popped', -⟩ := h₁.pop
    have same : rest = m₂ := by
      rw [eq_of_take? taken, eq_of_pop? popped', eq_of_pop? popped]
      rfl
    simp only [Func.instr, Instr.run?, popped, popped', Option.bind_some, same]
  | variadic arity f =>
    simp only [Func.value?, Primitive.value?] at hv
    split at hv <;> cases hv
    rw [Func.instr, Instr.run?, taken]
    rfl

end Machine

/-- A machine computes a function of the scope at a number of arguments that the function accepts:
the instruction takes them off the stack and puts there the value of the function. -/
structure Instr.Calls {places : Nat} (scope : Scope) (store : Store) (instr : Instr)
    (m : Machine places) (func : Func) (args : List Float) : Prop where
  bound : scope.resolve func.name = some (.function func.primitive)
  accepted : func.arity.accepts args.length = true
  instr_eq : instr = func.instr args.length
  run_eq : ∃ value rest, func.value? args = some value ∧
    m.take? args.length = some (args, rest) ∧ instr.run? store m = rest.push? value

namespace Program

/-- Each call of a program computes, when it is its turn, a function of the scope at a number of
arguments that the function accepts. -/
def CallsAccepted (scope : Scope) (store : Store) (p : Program) : Prop :=
  ∀ pre instr post, p.code = pre ++ instr :: post → instr.isCall = true →
    ∃ m func args, run? store pre (.empty (places p.depth)) = some m ∧
      instr.Calls scope store m func args

theorem callsAccepted_ofExpr {scope : Scope} {e : Expr} {p : Program} (h : ofExpr e = ok p)
    (accepted : e.Accepted) (callable : ∀ instr ∈ e.code, instr.Callable scope) (store : Store) :
    p.CallsAccepted scope store := by
  intro pre instr post code call
  obtain ⟨m, stack, after, run, holds, -, exec⟩ := exists_turn h accepted store code
  have inside : instr ∈ e.code := by
    rw [← (ofExpr_eq_ok h).1, code]
    exact List.mem_append_right _ List.mem_cons_self
  obtain ⟨func, count, bound, accepts, rfl⟩ := callable instr inside call
  have enough := (Instr.length_of_exec? exec).1
  rw [Func.pops_instr accepts] at enough
  -- the arguments are what is on top of the stack
  obtain ⟨args, below, rfl, rfl⟩ : ∃ (args below : List Float), stack = args.reverse ++ below ∧
      args.length = count := by
    refine ⟨(stack.take count).reverse, stack.drop count, ?_, ?_⟩
    · rw [List.reverse_reverse, List.take_append_drop]
    · rw [List.length_reverse, List.length_take, Nat.min_eq_left enough]
  obtain ⟨value, hv⟩ := Func.exists_value? accepts
  obtain ⟨rest, taken, result⟩ := holds.call hv store
  exact ⟨m, func, args, run, bound, accepts, rfl, value, rest, hv, taken, result⟩

end Program

/-- No check fails when a text is compiled, whatever is bound in the scope, and each call of its
program computes a function of the scope at a number of arguments that the function accepts. -/
theorem compile_checked (options : Options) (scope : Scope) (source : String) :
    Checked.compile? options scope source = some (compile options scope source) ∧
      ∀ p, compile options scope source = ok p → ∀ store, p.CallsAccepted scope store := by
  refine ⟨Checked.compile?_eq options scope source, fun p h store => ?_⟩
  obtain ⟨e, parsed, accepted, laid⟩ := compile_eq_ok h
  exact Program.callsAccepted_ofExpr laid (options.accepted_prepare accepted)
    (options.callable_prepare (callable_of_parse parsed)) store

/-- A function of no argument, which is folded away, and one of two or more. -/
theorem compile_checked_arities :
    ∃ scope p,
      scope = ((Scope.builtin.withCell "x" "a").withVariadic "one" (.exactly 0)
        fun _ => 1).withVariadic "sum" (.atLeast 2) List.sum ∧
      compile {} scope "sum(one(), 2, sqrt(x))" = ok p ∧ p.size = 5 ∧
      Checked.compile? {} scope "sum(one(), 2, sqrt(x))" = some (ok p) ∧
      p.CallsAccepted scope fun _ => 9 := by
  have five : ((compile {} (((Scope.builtin.withCell "x" "a").withVariadic "one" (.exactly 0)
      fun _ => 1).withVariadic "sum" (.atLeast 2) List.sum) "sum(one(), 2, sqrt(x))").map
        Program.size).toOption = some 5 := by decide +kernel
  obtain ⟨p, compiled, size⟩ := Program.exists_of_map five
  obtain ⟨checked, calls⟩ := compile_checked {} _ "sum(one(), 2, sqrt(x))"
  exact ⟨_, p, rfl, compiled, size, compiled ▸ checked, calls p compiled _⟩

end Formula
