import Formula.Proofs.Depth
import Formula.Proofs.Machine

/-!
# Programs run without checks

The machine that is picked for a program never reaches below its stack or above its last
place, and what was found out about the stack when the program was laid out is what
happens when it runs (`Program.Safe`). This holds of every program of a text
(`compile_safe`).
-/

namespace Formula

open Except (ok error)

namespace Program

/-- How a program that was laid out runs on the machine that is picked for it, in a store. -/
structure Safe (p : Program) (store : Store) : Prop where
  /-- The program needs a place, and has as many as it needs. -/
  depth_pos : 1 ≤ p.depth
  depth_le : p.depth ≤ places p.depth
  /-- Before each instruction the machine has as many values as were counted for it, and
  these are enough for the instruction; after it there is one value for those it took, and
  no more values than the program is deep. -/
  step : ∀ pre instr post, p.code = pre ++ instr :: post →
    ∃ m m', run? store pre (.empty (places p.depth)) = some m ∧ m.top = height 0 pre ∧
      instr.pops ≤ m.top ∧ instr.run? store m = some m' ∧
      m'.top + instr.pops = m.top + 1 ∧ m'.top ≤ p.depth
  /-- After some instruction there are as many values as the program is deep. -/
  reached : ∃ pre instr post, p.code = pre ++ instr :: post ∧
    ∃ m, run? store (pre ++ [instr]) (.empty (places p.depth)) = some m ∧ m.top = p.depth
  /-- All instructions together leave one value, and one was counted for them. -/
  ended : ∃ m, run? store p.code (.empty (places p.depth)) = some m ∧ m.top = 1 ∧
    height 0 p.code = 1

section OfExpr

variable {e : Expr} {p : Program} (h : ofExpr e = ok p) (accepted : e.Accepted) (store : Store)
include h accepted

/-- The machine gets through the first instructions, however many. -/
theorem run?_prefix {pre : List Instr} (hp : pre <+: p.code) :
    ∃ m stack, run? store pre (.empty (places p.depth)) = some m ∧
      exec? store pre [] = some stack ∧ m.Holds stack ∧ m.top = height 0 pre := by
  have whole := Expr.exec?_code store accepted []
  rw [← (ofExpr_eq_ok h).1] at whole
  obtain ⟨post, code⟩ := hp
  rw [← code, exec?_append] at whole
  obtain ⟨stack, exec, -⟩ := Option.bind_eq_some_iff.mp whole
  have fits : ∀ first, first <+: pre → height 0 first ≤ places p.depth := by
    intro first hf
    have hp : first <+: p.code := hf.trans ⟨post, code⟩
    exact Nat.le_trans (height_le_depth h hp) (depth_le_places h)
  obtain ⟨m, run, holds⟩ := run?_of_exec? (Machine.holds_empty _) exec fits
  exact ⟨m, stack, run, exec, holds, holds.top.trans (height_of_exec? exec).symm⟩

/-- When it is the turn of an instruction, the machine holds a stack that it can run on. -/
theorem exists_turn {pre post : List Instr} {instr : Instr} (code : p.code = pre ++ instr :: post) :
    ∃ m stack after, run? store pre (.empty (places p.depth)) = some m ∧ m.Holds stack ∧
      m.top = height 0 pre ∧ instr.exec? store stack = some after := by
  have later : pre ++ [instr] <+: p.code := ⟨post, by rw [code, List.append_assoc]; rfl⟩
  obtain ⟨m, stack, run, exec, holds, top⟩ :=
    run?_prefix h accepted store ((List.prefix_append pre [instr]).trans later)
  obtain ⟨-, after, -, exec', -⟩ := run?_prefix h accepted store later
  rw [exec?_append, exec, Option.bind_some, exec?_singleton] at exec'
  exact ⟨m, stack, after, run, holds, top, exec'⟩

theorem safe_ofExpr : p.Safe store where
  depth_pos := depth_pos h accepted
  depth_le := depth_le_places h
  step := by
    intro pre instr post code
    have later : pre ++ [instr] <+: p.code := ⟨post, by rw [code, List.append_assoc]; rfl⟩
    obtain ⟨m, stack, after, run, holds, top, exec'⟩ := exists_turn h accepted store code
    obtain ⟨enough, length⟩ := instr.length_of_exec? exec'
    have le : after.length ≤ p.depth := by
      have := height_le_depth h later
      rw [height_concat, ← top, holds.top, ← length, Nat.add_sub_cancel] at this
      exact this
    obtain ⟨m', run', holds'⟩ :=
      instr.run?_of_exec? holds exec' (Nat.le_trans le (depth_le_places h))
    refine ⟨m, m', run, top, ?_, run', ?_, ?_⟩
    · rw [holds.top]; exact enough
    · rw [holds.top, holds'.top]; exact length
    · rw [holds'.top]; exact le
  reached := by
    obtain ⟨pre, hp, reached⟩ := exists_height_eq_depth h accepted
    obtain ⟨m, -, run, -, -, top⟩ := run?_prefix h accepted store hp
    obtain ⟨post, code⟩ := hp
    rcases List.eq_nil_or_concat pre with rfl | ⟨first, instr, rfl⟩
    · exact absurd reached (Nat.ne_of_lt (depth_pos h accepted))
    · rw [List.concat_eq_append] at *
      refine ⟨first, instr, post, ?_, m, run, top.trans reached⟩
      rw [← code, List.append_assoc]
      rfl
  ended := by
    obtain ⟨m, -, run, -, -, top⟩ := run?_prefix h accepted store (List.prefix_refl p.code)
    have one := height_code h accepted
    exact ⟨m, run, top.trans one, one⟩

end OfExpr

/-- However long its text is and however many levels it may open, the program of a text
runs without checks. -/
theorem compile_safe {options : Options} {scope : Scope} {source : String} {p : Program}
    (h : compile options scope source = ok p) (store : Store) : p.Safe store := by
  obtain ⟨e, -, accepted, laid⟩ := compile_eq_ok h
  exact safe_ofExpr laid (options.accepted_prepare accepted) store

/-- A text with calls of no argument, one and three, whose program is four values deep. -/
theorem compile_safe_max :
    ∃ p, compile {}
        ((Scope.builtin.bind "x" (.cell "x")).bind "one" (.variadic (.exactly 0) fun _ => 1))
        "x - max(one(), 2, sqrt(x))" = ok p ∧ p.depth = 4 ∧ p.Safe fun _ => 9 := by
  refine (exists_of_map ?_).imp fun p h => ⟨h.1, h.2, compile_safe h.1 _⟩
  decide +kernel

end Program

end Formula
