import Formula.Proofs.Stack

/-!
# The depth of a program

`Program.peak` follows the height of the stack from instruction to instruction. What it
gives is the largest height after any of them: none is above it (`height_le_of_peak`), and
one is reached (`exists_height_of_peak`). It gives no more than `capacity`, so that one of
the machines of `Program.eval` is large enough (`depth_le_places`).
-/

namespace Formula.Program

open Except (ok error)

variable {n most depth : Nat} {code : List Placed}

theorem peak_cons_eq_ok {placed : Placed} :
    peak n most (placed :: code) = ok depth ↔
      n + 1 - placed.instr.pops ≤ capacity ∧
        peak (n + 1 - placed.instr.pops) (max most (n + 1 - placed.instr.pops)) code =
          ok depth := by
  rw [peak, ← Nat.not_lt]
  by_cases high : capacity < n + 1 - placed.instr.pops
  · simp [high]
  · simp only [high, if_false, not_false_eq_true, true_and]

theorem le_of_peak (h : peak n most code = ok depth) : most ≤ depth := by
  induction code generalizing n most with
  | nil => cases h; exact Nat.le_refl _
  | cons placed rest ih => exact Nat.le_trans (Nat.le_max_left _ _) (ih (peak_cons_eq_ok.mp h).2)

theorem le_capacity_of_peak (h : peak n most code = ok depth) (hm : most ≤ capacity) :
    depth ≤ capacity := by
  induction code generalizing n most with
  | nil => cases h; exact hm
  | cons placed rest ih =>
    obtain ⟨fits, h⟩ := peak_cons_eq_ok.mp h
    exact ih h (Nat.max_le.mpr ⟨hm, fits⟩)

/-- The stack is never higher than the depth. -/
theorem height_le_of_peak (h : peak n most code = ok depth) (hn : n ≤ most)
    {pre : List Instr} (hp : pre <+: code.map Placed.instr) : height n pre ≤ depth := by
  induction code generalizing n most pre with
  | nil =>
    rw [List.prefix_nil.mp hp]
    exact Nat.le_trans hn (le_of_peak h)
  | cons placed rest ih =>
    rcases List.prefix_cons_iff.mp hp with rfl | ⟨later, rfl, hl⟩
    · exact Nat.le_trans hn (le_of_peak h)
    · exact ih (peak_cons_eq_ok.mp h).2 (Nat.le_max_right _ _) hl

/-- A depth above what was there before is the height after some instruction. -/
theorem exists_height_of_peak (h : peak n most code = ok depth) (hm : most < depth) :
    ∃ pre, pre <+: code.map Placed.instr ∧ height n pre = depth := by
  induction code generalizing n most with
  | nil => cases h; exact absurd hm (Nat.lt_irrefl _)
  | cons placed rest ih =>
    have h := (peak_cons_eq_ok.mp h).2
    by_cases later : max most (n + 1 - placed.instr.pops) < depth
    · obtain ⟨pre, hp, e⟩ := ih h later
      exact ⟨placed.instr :: pre, List.cons_prefix_cons.mpr ⟨rfl, hp⟩, e⟩
    · have := le_of_peak h
      refine ⟨[placed.instr], List.cons_prefix_cons.mpr ⟨rfl, List.nil_prefix⟩, ?_⟩
      rw [height_cons, height, List.foldl_nil]
      omega

theorem ofExpr_eq_ok {e : Expr} {p : Program} (h : ofExpr e = ok p) :
    p.code = e.code ∧ peak 0 0 e.instructions = ok p.depth := by
  unfold ofExpr at h
  split at h
  · cases h
  · cases h
    exact ⟨rfl, ‹_›⟩

/-- One of the machines that programs run on is large enough for what a program may need. -/
theorem le_places (h : depth ≤ capacity) : depth ≤ places depth := by
  unfold places
  split
  · assumption
  split
  · assumption
  · exact h

/-- A program that is known by a part of it. -/
theorem exists_of_map {α : Type} {result : Except Diagnostic Program} {f : Program → α} {a : α}
    (h : (result.map f).toOption = some a) : ∃ p, result = ok p ∧ f p = a := by
  cases result with
  | error => cases h
  | ok p => exact ⟨p, rfl, Option.some.inj h⟩

section OfExpr

variable {e : Expr} {p : Program} (h : ofExpr e = ok p)
include h

theorem depth_le_places : p.depth ≤ places p.depth :=
  le_places (le_capacity_of_peak (ofExpr_eq_ok h).2 (Nat.zero_le _))

theorem height_le_depth {pre : List Instr} (hp : pre <+: p.code) : height 0 pre ≤ p.depth := by
  obtain ⟨code, peaked⟩ := ofExpr_eq_ok h
  rw [code] at hp
  exact height_le_of_peak peaked (Nat.le_refl _) hp

/-- The instructions of an accepted expression leave one value on the stack. -/
theorem height_code (accepted : e.Accepted) : height 0 p.code = 1 := by
  rw [(ofExpr_eq_ok h).1]
  exact height_of_exec? (Expr.exec?_code (fun _ => 0) accepted [])

theorem depth_pos (accepted : e.Accepted) : 0 < p.depth := by
  have last := height_le_depth h (List.prefix_refl p.code)
  rw [height_code h accepted] at last
  exact last

/-- The depth is reached. -/
theorem exists_height_eq_depth (accepted : e.Accepted) :
    ∃ pre, pre <+: p.code ∧ height 0 pre = p.depth := by
  obtain ⟨code, peaked⟩ := ofExpr_eq_ok h
  rw [code]
  exact exists_height_of_peak peaked (depth_pos h accepted)

end OfExpr

end Formula.Program
