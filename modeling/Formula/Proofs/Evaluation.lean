import Formula.Proofs.Depth
import Formula.Proofs.Machine

/-!
# Programs compute expressions

The program that is laid out for an accepted expression computes the value of the
expression (`eval_ofExpr`): without a machine if it is one number, and otherwise on every
machine that has as many places as the program is deep, whatever its places hold before
(`run?_ofExpr`).
-/

namespace Formula.Program

open Except (ok error)

/-- A machine with nothing on its stack and enough places ends with the value alone on its
stack. -/
theorem run?_ofExpr {e : Expr} {p : Program} (h : ofExpr e = ok p) (accepted : e.Accepted)
    (store : Store) {places : Nat} (large : p.depth ≤ places) {m : Machine places}
    (empty : m.top = 0) : ∃ m', run? store p.code m = some m' ∧ m'.Holds [e.eval store] := by
  have code : p.code = e.code := (ofExpr_eq_ok h).1
  have exec : exec? store p.code [] = some [e.eval store] := by
    rw [code]
    exact Expr.exec?_code store accepted []
  exact run?_of_exec? (Machine.holds_nil empty) exec
    fun _ hp => Nat.le_trans (height_le_depth h hp) large

/-- A program that is one number needs no machine. -/
theorem eval_ofExpr {e : Expr} {p : Program} (h : ofExpr e = ok p) (accepted : e.Accepted)
    (store : Store) : p.eval store = e.eval store := by
  unfold eval
  split
  · rename_i value single
    have exec := Expr.exec?_code store accepted []
    rw [← (ofExpr_eq_ok h).1, single] at exec
    cases exec
    rfl
  · obtain ⟨m, run, holds⟩ := run?_ofExpr h accepted store (depth_le_places h)
      (m := Machine.empty _) rfl
    rw [run, Option.bind_some, holds.result, Option.getD_some]

/-- The program of an accepted expression has the value of the expression in every store,
and so has every run of it on a machine that is large enough, from whatever is left in the
places of the machine. -/
theorem ofExpr_computes (e : Expr) (p : Program) (accepted : e.Accepted) (h : ofExpr e = ok p)
    (store : Store) :
    p.eval store = e.eval store ∧
      ∀ (places : Nat) (m : Machine places), p.depth ≤ places → m.top = 0 →
        ∃ m', run? store p.code m = some m' ∧ m'.result? = some (e.eval store) := by
  refine ⟨eval_ofExpr h accepted store, fun places m large empty => ?_⟩
  obtain ⟨m', run, holds⟩ := run?_ofExpr h accepted store large empty
  exact ⟨m', run, holds.result⟩

/-- The program of `max(x, 2) - 1` where the cell of `x` holds five, and the same program
on a machine of two places that are not clean. -/
theorem ofExpr_computes_call :
    (⟨[.load "x" "x", .const 2, .callN "max" 2 Arithmetic.maximum, .const 1, .op .sub], 2⟩ :
      Program).eval (fun _ => 5) = Arithmetic.maximum [5, 2] - 1 ∧
    ∃ m', run? (fun _ => 5)
        [.load "x" "x", .const 2, .callN "max" 2 Arithmetic.maximum, .const 1, .op .sub]
        (⟨#v[7, 8], 0⟩ : Machine 2) = some m' ∧
      m'.result? = some (Arithmetic.maximum [5, 2] - 1) := by
  have accepted : Expr.Accepted
      (.run ⟨0, 13⟩
        (.call ⟨0, 9⟩ ⟨"max", .variadic (.atLeast 1) Arithmetic.maximum⟩
          [.var ⟨4, 5⟩ "x" "x", .literal ⟨7, 8⟩ 2])
        [⟨.sub, ⟨10, 11⟩, .literal ⟨12, 13⟩ 1⟩]) := by
    refine .run (.call rfl ?_) ?_
    · simp [Expr.Accepted.literal, Expr.Accepted.var]
    · simp [Expr.Accepted.literal]
  obtain ⟨value, runs⟩ := ofExpr_computes _
    ⟨[.load "x" "x", .const 2, .callN "max" 2 Arithmetic.maximum, .const 1, .op .sub], 2⟩
    accepted rfl fun _ => 5
  obtain ⟨m', run, result⟩ := runs 2 ⟨#v[7, 8], 0⟩ (Nat.le_refl 2) rfl
  simp only [Expr.eval, Expr.evalArgs, Expr.evalSteps, Func.value?, Primitive.value?,
    Arity.accepts, Operator.apply, List.length_cons, Nat.le_add_left, decide_true, if_true,
    Option.getD_some] at value result
  exact ⟨value, m', run, result⟩

end Formula.Program
