import Formula.Proofs.Depth

/-!
# How much of the stack an expression needs

`Expr.need` is the largest number of values that are on the stack while an expression is
computed, found from the expression alone: the operands of a run find one value there, and
each argument of a call finds those before it. The values that are put there without taking any
are those of the leaves (`Expr.leaves`). They fill the stack place by place, so there is room for
an expression if and only if none of its leaves comes to the place above (`Expr.spares_leaves`).

`Program.peak` finds the same number instruction by instruction, and stops at the same leaf
(`Program.peak_instructions`). So an expression has a program if and only if it needs no more
than `capacity` values, the program is as deep as it needs (`Program.ofExpr_eq_ok_iff`), and
otherwise the first leaf without a place is nested too deeply (`Program.ofExpr_exact`).
-/

namespace Formula

open Except (ok error)

/-- What puts a value on the stack and takes none, and which value that is, counted from one at
the bottom of the stack. -/
structure Leaf where
  span : Span
  place : Nat
deriving DecidableEq

namespace Expr

mutual

/-- The largest number of values on the stack while an expression is computed. -/
def need : Expr → Nat
  | literal _ _ => 1
  | var _ _ _ => 1
  | neg _ _ operand => operand.need
  | run _ first steps => max first.need (needSteps steps)
  | call _ _ args => max 1 (needArgs args)
termination_by structural e => e

/-- The same for the operands of some steps, which find one value there. -/
def needSteps : List (Step Expr) → Nat
  | [] => 0
  | ⟨_, _, operand⟩ :: rest => max (1 + operand.need) (needSteps rest)
termination_by structural steps => steps

/-- The same for some arguments, each of which finds the values of those before it. -/
def needArgs : List Expr → Nat
  | [] => 0
  | arg :: rest => max arg.need (1 + needArgs rest)
termination_by structural args => args

end

mutual

/-- The leaves of an expression from left to right, which are its numbers, its variables and its
calls of no argument, if there are `below` values on the stack before it. -/
def leaves : Expr → Nat → List Leaf
  | literal span _, below => [⟨span, below + 1⟩]
  | var span _ _, below => [⟨span, below + 1⟩]
  | neg _ _ operand, below => operand.leaves below
  | run _ first steps, below => first.leaves below ++ leavesSteps steps below
  | call span _ args, below =>
    if args.isEmpty then [⟨span, below + 1⟩] else leavesArgs args below
termination_by structural e => e

/-- The leaves of the operands of some steps, which find one value more. -/
def leavesSteps : List (Step Expr) → Nat → List Leaf
  | [], _ => []
  | ⟨_, _, operand⟩ :: rest, below => operand.leaves (below + 1) ++ leavesSteps rest below
termination_by structural steps => steps

/-- The leaves of some arguments, each of which finds the values of those before it. -/
def leavesArgs : List Expr → Nat → List Leaf
  | [], _ => []
  | arg :: rest, below => arg.leaves below ++ leavesArgs rest (below + 1)
termination_by structural args => args

end

/-- Every expression puts a value on the stack. -/
theorem need_pos (e : Expr) : 1 ≤ e.need := by
  induction e using Expr.induction with
  | literal | var => exact Nat.le_refl 1
  | neg _ _ _ ih => exact ih
  | run _ _ _ ih => exact Nat.le_trans ih (Nat.le_max_left _ _)
  | call => exact Nat.le_max_left _ _

/-- Of the arguments of a call, the one with number `i`, counted from zero, finds `i` values. -/
theorem needArgs_le_iff {args : List Expr} {n : Nat} :
    needArgs args ≤ n ↔ ∀ i (h : i < args.length), i + args[i].need ≤ n := by
  induction args generalizing n with
  | nil => simp [needArgs]
  | cons arg rest ih =>
    have rest_iff : 1 + needArgs rest ≤ n ↔ 1 ≤ n ∧ needArgs rest ≤ n - 1 := by omega
    rw [needArgs, Nat.max_le, rest_iff, ih]
    constructor
    · rintro ⟨here, some, later⟩ i h
      cases i with
      | zero => simpa using here
      | succ i =>
        have := later i (Nat.lt_of_succ_lt_succ h)
        simp only [List.getElem_cons_succ]
        omega
    · intro all
      have here : arg.need ≤ n := by simpa using all 0 (Nat.zero_lt_succ _)
      refine ⟨here, Nat.le_trans arg.need_pos here, fun i h => ?_⟩
      have := all (i + 1) (Nat.succ_lt_succ h)
      simp only [List.getElem_cons_succ] at this
      omega

/-! ## Places of leaves -/

/-- No leaf comes to a place. -/
def Spares (leaves : List Leaf) (place : Nat) : Prop :=
  ∀ leaf ∈ leaves, leaf.place ≠ place

theorem spares_nil (place : Nat) : Spares [] place :=
  List.forall_mem_nil _

theorem spares_append {a b : List Leaf} {place : Nat} :
    Spares (a ++ b) place ↔ Spares a place ∧ Spares b place :=
  List.forall_mem_append

theorem spares_singleton {n m : Nat} (h : n ≤ m) (span : Span) :
    Spares [⟨span, n + 1⟩] (m + 1) ↔ n + 1 ≤ m := by
  simp only [Spares, List.forall_mem_singleton]
  omega

theorem spares_leavesSteps {steps : List (Step Expr)} {n m : Nat} (h : n + 1 ≤ m)
    (ih : ∀ step ∈ steps, ∀ {n m : Nat}, n ≤ m →
      (Spares (step.operand.leaves n) (m + 1) ↔ n + step.operand.need ≤ m)) :
    Spares (leavesSteps steps n) (m + 1) ↔ n + needSteps steps ≤ m := by
  induction steps with
  | nil => exact iff_of_true (spares_nil _) (Nat.le_of_succ_le h)
  | cons step rest ihs =>
    obtain ⟨here, later⟩ := List.forall_mem_cons.mp ih
    rw [leavesSteps, spares_append, here h, ihs later, needSteps]
    omega

theorem spares_leavesArgs {args : List Expr} {n m : Nat} (h : n ≤ m)
    (ih : ∀ arg ∈ args, ∀ {n m : Nat}, n ≤ m →
      (Spares (arg.leaves n) (m + 1) ↔ n + arg.need ≤ m)) :
    Spares (leavesArgs args n) (m + 1) ↔ n + needArgs args ≤ m := by
  induction args generalizing n with
  | nil => exact iff_of_true (spares_nil _) h
  | cons arg rest ihs =>
    obtain ⟨here, later⟩ := List.forall_mem_cons.mp ih
    have needed := arg.need_pos
    rw [leavesArgs, spares_append, here h, needArgs]
    have rest_iff (room : n + arg.need ≤ m) := ihs (n := n + 1) (by omega) later
    rw [and_congr_right rest_iff]
    omega

/-- Leaves fill the stack place by place: none comes to the place above `m` if and only if there
is room up to `m` for all that the expression needs. -/
theorem spares_leaves {e : Expr} {n m : Nat} (h : n ≤ m) :
    Spares (e.leaves n) (m + 1) ↔ n + e.need ≤ m := by
  induction e using Expr.induction generalizing n m with
  | literal span | var span => exact spares_singleton h span
  | neg _ _ operand ih => exact ih h
  | run _ first steps ih ihs =>
    have needed := first.need_pos
    have steps_iff (room : n + first.need ≤ m) :=
      spares_leavesSteps (n := n) (m := m) (by omega) ihs
    rw [leaves, spares_append, ih h, and_congr_right steps_iff, need]
    omega
  | call span _ args ih =>
    rw [leaves, need]
    cases args with
    | nil => exact spares_singleton h span
    | cons arg rest =>
      have needed := arg.need_pos
      rw [List.isEmpty_cons, if_neg Bool.false_ne_true, spares_leavesArgs h ih, needArgs]
      omega

end Expr

/-- A call takes as many values off the stack as it has arguments. -/
theorem Func.pops_instr {func : Func} {count : Nat} (h : func.arity.accepts count = true) :
    (func.instr count).pops = count := by
  obtain ⟨name, primitive⟩ := func
  cases primitive with
  | unary | binary =>
    simp only [arity, Primitive.arity, Arity.accepts, beq_iff_eq] at h
    rw [h]
    rfl
  | variadic => rfl

namespace Program

open Formula.Expr (Spares spares_append spares_leaves)

/-! ## Room for leaves -/

/-- What is gone on with when there is a place for every leaf. If not, the first leaf that comes
to the place above the capacity is nested too deeply. -/
def allot {α : Type} (leaves : List Leaf) (go : Except Diagnostic α) : Except Diagnostic α :=
  match leaves.find? (·.place == capacity + 1) with
  | some leaf => error ⟨.nestingTooDeep, leaf.span⟩
  | none => go

section Allot

variable {α : Type} {leaves : List Leaf} {go go' : Except Diagnostic α}

theorem spares_iff_find?_eq_none :
    Spares leaves (capacity + 1) ↔ leaves.find? (·.place == capacity + 1) = none := by
  simp [Spares]

theorem allot_of_spares (h : Spares leaves (capacity + 1)) : allot leaves go = go := by
  rw [allot, spares_iff_find?_eq_none.mp h]

theorem exists_of_not_spares (h : ¬ Spares leaves (capacity + 1)) (go : Except Diagnostic α) :
    ∃ leaf, leaves.find? (·.place == capacity + 1) = some leaf ∧
      allot leaves go = error ⟨.nestingTooDeep, leaf.span⟩ := by
  rw [spares_iff_find?_eq_none, ← ne_eq, Option.ne_none_iff_exists'] at h
  obtain ⟨leaf, found⟩ := h
  exact ⟨leaf, found, by rw [allot, found]⟩

theorem allot_append (a b : List Leaf) : allot (a ++ b) go = allot a (allot b go) := by
  unfold allot
  rw [List.find?_append]
  cases a.find? (·.place == capacity + 1) <;> rfl

/-- It only matters how one goes on if there is a place for every leaf. -/
theorem allot_congr (h : Spares leaves (capacity + 1) → go = go') :
    allot leaves go = allot leaves go' := by
  by_cases spared : Spares leaves (capacity + 1)
  · rw [h spared]
  · obtain ⟨leaf, found, stopped⟩ := exists_of_not_spares spared go
    rw [stopped, allot, found]

end Allot

/-! ## From instruction to instruction -/

variable {n most : Nat} {placed : Placed}

/-- An instruction that takes nothing is a leaf. -/
theorem peak_leaf (takes : placed.instr.pops = 0) (room : n ≤ capacity) (code : List Placed) :
    peak n most (placed :: code) =
      allot [⟨placed.span, n + 1⟩] (peak (n + 1) (max most (n + 1)) code) := by
  rw [peak, takes, Nat.sub_zero]
  by_cases full : n = capacity
  · simp [allot, full]
  · have fits : ¬ capacity < n + 1 := by omega
    simp [allot, full, fits]

/-- An instruction that leaves no more on the stack than was there at some time before. -/
theorem peak_within (le : n + 1 - placed.instr.pops ≤ most) (fits : most ≤ capacity)
    (code : List Placed) :
    peak n most (placed :: code) = peak (n + 1 - placed.instr.pops) most code := by
  rw [peak]
  simp only [Nat.max_eq_left le, if_neg (Nat.not_lt.mpr (Nat.le_trans le fits))]

/-- What is said of an expression: its instructions find places for its leaves, with whatever
follows them, and the largest number of values grows to what the expression needs. -/
def Peaks (e : Expr) : Prop :=
  ∀ n most code, n ≤ most → most ≤ capacity →
    peak n most (e.instructions ++ code) =
      allot (e.leaves n) (peak (n + 1) (max most (n + e.need)) code)

theorem peak_steps {steps : List (Step Expr)} (h : ∀ step ∈ steps, Peaks step.operand)
    {n most : Nat} (height : n + 1 ≤ most) (fits : most ≤ capacity) (code : List Placed) :
    peak (n + 1) most (Expr.stepInstructions steps ++ code) =
      allot (Expr.leavesSteps steps n)
        (peak (n + 1) (max most (n + Expr.needSteps steps)) code) := by
  induction steps generalizing most with
  | nil =>
    have le : n ≤ most := Nat.le_of_succ_le height
    simp only [Expr.stepInstructions, Expr.leavesSteps, Expr.needSteps, List.nil_append,
      Nat.add_zero, Nat.max_eq_left le]
    rfl
  | cons step rest ih =>
    obtain ⟨here, later⟩ := List.forall_mem_cons.mp h
    have needed := step.operand.need_pos
    rw [Expr.stepInstructions, List.append_assoc, here _ _ _ height fits, Expr.leavesSteps,
      allot_append]
    refine allot_congr fun spared => ?_
    have room := (spares_leaves (Nat.le_trans height fits)).mp spared
    have high : max most (n + 1 + step.operand.need) ≤ capacity := Nat.max_le.mpr ⟨fits, room⟩
    have whole : max (max most (n + 1 + step.operand.need)) (n + Expr.needSteps rest) =
        max most (n + Expr.needSteps (step :: rest)) := by
      rw [Expr.needSteps]
      omega
    rw [List.cons_append, peak_within (by simp only [Instr.pops]; omega) high, ← whole]
    exact ih later (by omega) high

theorem peak_args {args : List Expr} (h : ∀ arg ∈ args, Peaks arg) {n most : Nat}
    (height : n ≤ most) (fits : most ≤ capacity) (code : List Placed) :
    peak n most (Expr.argInstructions args ++ code) =
      allot (Expr.leavesArgs args n)
        (peak (n + args.length) (max most (n + Expr.needArgs args)) code) := by
  induction args generalizing n most with
  | nil =>
    simp only [Expr.argInstructions, Expr.leavesArgs, Expr.needArgs, List.nil_append,
      List.length_nil, Nat.add_zero, Nat.max_eq_left height]
    rfl
  | cons arg rest ih =>
    obtain ⟨here, later⟩ := List.forall_mem_cons.mp h
    have needed := arg.need_pos
    rw [Expr.argInstructions, List.append_assoc, here _ _ _ height fits, Expr.leavesArgs,
      allot_append]
    refine allot_congr fun spared => ?_
    have room := (spares_leaves (Nat.le_trans height fits)).mp spared
    have whole : max (max most (n + arg.need)) (n + 1 + Expr.needArgs rest) =
        max most (n + Expr.needArgs (arg :: rest)) := by
      rw [Expr.needArgs]
      omega
    have length : n + 1 + rest.length = n + (arg :: rest).length := by
      rw [List.length_cons]
      omega
    rw [← whole, ← length]
    exact ih later (by omega) (Nat.max_le.mpr ⟨fits, room⟩)

/-- The instructions of an expression need as much of the stack as the expression does, and
leave one value there. -/
theorem peak_instructions {e : Expr} (accepted : e.Accepted) : Peaks e := by
  induction accepted with
  | literal | var => exact fun _ _ code height fits => peak_leaf rfl (Nat.le_trans height fits) code
  | @neg _ _ operand _ ih =>
    intro n most code height fits
    have needed := operand.need_pos
    rw [Expr.instructions, List.append_assoc, ih _ _ _ height fits, Expr.leaves, Expr.need]
    refine allot_congr fun spared => ?_
    have room := (spares_leaves (Nat.le_trans height fits)).mp spared
    exact peak_within (by simp only [Instr.pops]; omega) (Nat.max_le.mpr ⟨fits, room⟩) code
  | @run _ first steps _ _ ih ihs =>
    intro n most code height fits
    have needed := first.need_pos
    rw [Expr.instructions, List.append_assoc, ih _ _ _ height fits, Expr.leaves, allot_append,
      Expr.need, ← Nat.add_max_add_left, ← Nat.max_assoc]
    refine allot_congr fun spared => ?_
    have room := (spares_leaves (Nat.le_trans height fits)).mp spared
    exact peak_steps ihs (by omega) (Nat.max_le.mpr ⟨fits, room⟩) code
  | @call span func args accepted _ ih =>
    intro n most code height fits
    have pops : (func.instr args.length).pops = args.length := func.pops_instr accepted
    cases args with
    | nil => exact peak_leaf pops (Nat.le_trans height fits) code
    | cons arg rest =>
      have needed := arg.need_pos
      have whole : (Expr.call span func (arg :: rest)).need = Expr.needArgs (arg :: rest) := by
        rw [Expr.need, Expr.needArgs]
        omega
      have leaves : (Expr.call span func (arg :: rest)).leaves n =
        Expr.leavesArgs (arg :: rest) n := rfl
      rw [Expr.instructions, List.append_assoc, peak_args ih height fits, ← whole, ← leaves]
      refine allot_congr fun spared => ?_
      have room := (spares_leaves (Nat.le_trans height fits)).mp spared
      have after :
          n + (arg :: rest).length + 1 - (func.instr (arg :: rest).length).pops = n + 1 := by
        rw [pops]
        omega
      have some := (Expr.call span func (arg :: rest)).need_pos
      rw [List.singleton_append,
        peak_within (by rw [after]; omega) (Nat.max_le.mpr ⟨fits, room⟩), after]

/-- An expression is laid out with as much room as it needs, if there is a place for every
leaf. -/
theorem ofExpr_eq {e : Expr} (accepted : e.Accepted) :
    ofExpr e = allot (e.leaves 0) (ok ⟨e.code, e.need⟩) := by
  have peaks := peak_instructions accepted 0 0 [] (Nat.le_refl 0) (Nat.zero_le _)
  rw [List.append_nil, Nat.zero_add, Nat.zero_max, Nat.zero_add, peak] at peaks
  rw [ofExpr, peaks]
  unfold allot
  cases (e.leaves 0).find? (·.place == capacity + 1) <;> rfl

/-- An expression has a program if and only if it needs no more values than there may be,
and the program is as deep as it needs. -/
theorem ofExpr_eq_ok_iff {e : Expr} {p : Program} (accepted : e.Accepted) :
    ofExpr e = ok p ↔ e.need ≤ capacity ∧ p = ⟨e.code, e.need⟩ := by
  have room_iff := spares_leaves (e := e) (Nat.zero_le capacity)
  rw [Nat.zero_add] at room_iff
  rw [ofExpr_eq accepted, ← room_iff]
  by_cases spared : Spares (e.leaves 0) (capacity + 1)
  · rw [allot_of_spares spared, ok.injEq, and_iff_right spared]
    exact eq_comm
  · obtain ⟨leaf, -, stopped⟩ := exists_of_not_spares spared (ok (⟨e.code, e.need⟩ : Program))
    simp [stopped, spared]

/-- The expressions that have a program are those that need no more values than there may be, and
their programs are as deep as they need. Of any other, the first leaf whose value would be one too
many is nested too deeply. -/
theorem ofExpr_exact {e : Expr} (accepted : e.Accepted) :
    ((∃ p, ofExpr e = ok p) ↔ e.need ≤ capacity) ∧ (∀ p, ofExpr e = ok p → p.depth = e.need) ∧
      (capacity < e.need → ∃ leaf, (e.leaves 0).find? (·.place == capacity + 1) = some leaf ∧
        ofExpr e = error ⟨.nestingTooDeep, leaf.span⟩) := by
  refine ⟨⟨?_, ?_⟩, ?_, ?_⟩
  · rintro ⟨p, laid⟩
    exact ((ofExpr_eq_ok_iff accepted).mp laid).1
  · exact fun room => ⟨_, (ofExpr_eq_ok_iff accepted).mpr ⟨room, rfl⟩⟩
  · intro p laid
    rw [((ofExpr_eq_ok_iff accepted).mp laid).2]
  · intro large
    have full : ¬ Spares (e.leaves 0) (capacity + 1) := by
      rw [spares_leaves (Nat.zero_le _), Nat.zero_add]
      exact Nat.not_le.mpr large
    rw [ofExpr_eq accepted]
    exact exists_of_not_spares full _

/-- A call of 256 numbers fills the stack. With one number more, that number has no place. -/
theorem ofExpr_exact_max :
    (∃ p, ofExpr (.call ⟨0, 516⟩ ⟨"max", .variadic (.atLeast 1) Arithmetic.maximum⟩
        ((List.range 256).map fun i => .literal ⟨4 + 2 * i, 5 + 2 * i⟩ 1)) = ok p ∧
      p.depth = 256) ∧
    ofExpr (.call ⟨0, 518⟩ ⟨"max", .variadic (.atLeast 1) Arithmetic.maximum⟩
        ((List.range 257).map fun i => .literal ⟨4 + 2 * i, 5 + 2 * i⟩ 1)) =
      error ⟨.nestingTooDeep, ⟨516, 517⟩⟩ := by
  have accepted (span : Span) (n : Nat) (some : 1 ≤ n) : Expr.Accepted
      (.call span ⟨"max", .variadic (.atLeast 1) Arithmetic.maximum⟩
        ((List.range n).map fun i => .literal ⟨4 + 2 * i, 5 + 2 * i⟩ 1)) := by
    refine .call ?_ (List.forall_mem_map.mpr fun i _ => .literal _ _)
    rw [List.length_map, List.length_range]
    exact decide_eq_true some
  constructor
  · have fits := ofExpr_exact (accepted ⟨0, 516⟩ 256 (by decide))
    obtain ⟨p, laid⟩ := fits.1.mpr (by decide +kernel)
    exact ⟨p, laid, (fits.2.1 p laid).trans (by decide +kernel)⟩
  · obtain ⟨leaf, found, stopped⟩ :=
      (ofExpr_exact (accepted ⟨0, 518⟩ 257 (by decide))).2.2 (by decide +kernel)
    have last : some leaf = some ⟨⟨516, 517⟩, 257⟩ := found.symm.trans (by decide +kernel)
    cases last
    exact stopped

end Program

end Formula
