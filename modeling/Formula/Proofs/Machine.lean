import Formula.Proofs.Stack

/-!
# Machines and their stacks

A machine holds a stack if its lowest places, as many as it says are taken, hold the
values of the stack, the top in the highest of them (`Machine.Holds`). What other places
hold does not matter.

As long as there are enough places, a machine does with its places what instructions do
with the stack it holds (`Program.run?_of_exec?`).
-/

namespace Formula

namespace Machine

variable {places : Nat} {m : Machine places} {stack : List Float} {value : Float}

/-- The lowest places hold the values of a stack, the top last, and these places are taken. -/
structure Holds (m : Machine places) (stack : List Float) : Prop where
  top : m.top = stack.length
  slots : stack.reverse <+: m.slots.toList

/-- A machine of which no place is taken holds the empty stack, whatever is in its places. -/
theorem holds_nil (h : m.top = 0) : m.Holds [] :=
  ⟨h, List.nil_prefix⟩

theorem holds_empty (places : Nat) : (empty places).Holds [] :=
  holds_nil rfl

namespace Holds

theorem length_le (h : m.Holds stack) : stack.length ≤ places := by
  have := h.slots.length_le
  rwa [List.length_reverse, Vector.length_toList] at this

theorem push (h : m.Holds stack) (room : stack.length < places) (value : Float) :
    ∃ m', m.push? value = some m' ∧ m'.Holds (value :: stack) := by
  have room' : m.top < places := h.top ▸ room
  refine ⟨_, dif_pos room', congrArg (· + 1) h.top, ?_⟩
  obtain ⟨rest, e⟩ := h.slots
  have length : m.top = stack.reverse.length := by rw [h.top, List.length_reverse]
  have more : rest ≠ [] := by
    rintro rfl
    rw [List.append_nil] at e
    rw [length, e, Vector.length_toList] at room'
    exact Nat.lt_irrefl _ room'
  obtain ⟨old, rest, rfl⟩ := List.exists_cons_of_ne_nil more
  refine ⟨rest, ?_⟩
  rw [Vector.toList_set, ← e, length, List.set_append_right _ _ (Nat.le_refl _), Nat.sub_self,
    List.set_cons_zero, List.reverse_cons, List.append_assoc, List.singleton_append]

/-- The top of the stack is in the highest place that is taken. -/
theorem getElem?_top (h : m.Holds (value :: stack)) : m.slots[stack.length]? = some value := by
  obtain ⟨rest, e⟩ := h.slots
  rw [List.reverse_cons, List.append_assoc, List.singleton_append] at e
  rw [← Vector.getElem?_toList, ← e, ← List.length_reverse,
    List.getElem?_append_right (Nat.le_refl _), Nat.sub_self, List.getElem?_cons_zero]

theorem pop (h : m.Holds (value :: stack)) :
    ∃ m', m.pop? = some (value, m') ∧ m'.Holds stack := by
  refine ⟨⟨m.slots, stack.length⟩, ?_, rfl, ?_⟩
  · unfold pop?
    rw [h.top, List.length_cons]
    simp only [h.getElem?_top, Option.map_some]
  · have below : stack.reverse <+: (value :: stack).reverse := by
      rw [List.reverse_cons]
      exact List.prefix_append _ _
    exact below.trans h.slots

theorem take {count : Nat} (h : m.Holds stack) (le : count ≤ stack.length) :
    ∃ m', m.take? count = some ((stack.take count).reverse, m') ∧
      m'.Holds (stack.drop count) := by
  refine ⟨⟨m.slots, m.top - count⟩, ?_, ?_, ?_⟩
  · have taken : m.slots.toList.take m.top = stack.reverse := by
      rw [h.top, ← List.length_reverse]
      exact (List.prefix_iff_eq_take.mp h.slots).symm
    unfold take?
    rw [if_pos ⟨h.top ▸ le, h.top ▸ h.length_le⟩, taken, h.top, List.reverse_take]
  · rw [List.length_drop, h.top]
  · exact (List.reverse_prefix.mpr (List.drop_suffix _ _)).trans h.slots

theorem result (h : m.Holds [value]) : m.result? = some value := by
  have top : m.top = 1 := h.top
  unfold result?
  rw [if_pos top]
  exact h.getElem?_top

theorem unary (h : m.Holds (value :: stack)) (f : Float → Float) :
    ∃ m', (m.pop?.bind fun (x, m) => m.push? (f x)) = some m' ∧ m'.Holds (f value :: stack) := by
  obtain ⟨m₁, popped, h₁⟩ := h.pop
  obtain ⟨m₂, pushed, h₂⟩ := h₁.push h.length_le (f value)
  exact ⟨m₂, by rw [popped, Option.bind_some]; exact pushed, h₂⟩

theorem binary {right left : Float} (h : m.Holds (right :: left :: stack))
    (f : Float → Float → Float) :
    ∃ m', (m.pop?.bind fun (y, m) => m.pop?.bind fun (x, m) => m.push? (f x y)) = some m' ∧
      m'.Holds (f left right :: stack) := by
  obtain ⟨m₁, popped, h₁⟩ := h.pop
  obtain ⟨m₂, applied, h₂⟩ := h₁.unary (f · right)
  exact ⟨m₂, by rw [popped, Option.bind_some]; exact applied, h₂⟩

end Holds

end Machine

open Machine

variable {places : Nat} {m : Machine places} {store : Store} {stack after : List Float}

/-- A machine with room for what an instruction puts on the stack does what the
instruction does with the stack. -/
theorem Instr.run?_of_exec? {instr : Instr} (h : m.Holds stack)
    (he : instr.exec? store stack = some after) (fits : after.length ≤ places) :
    ∃ m', instr.run? store m = some m' ∧ m'.Holds after := by
  cases instr with
  | const | load =>
    cases he
    exact h.push fits _
  | neg | call1 =>
    rcases stack with _ | ⟨x, stack⟩ <;> cases he
    exact h.unary _
  | op | call2 =>
    rcases stack with _ | ⟨y, _ | ⟨x, stack⟩⟩ <;> cases he
    exact h.binary _
  | callN name count f =>
    simp only [exec?] at he
    split at he
    · rename_i le
      cases he
      obtain ⟨m₁, taken, h₁⟩ := h.take le
      obtain ⟨m₂, pushed, h₂⟩ := h₁.push fits (f (stack.take count).reverse)
      exact ⟨m₂, by rw [run?, taken, Option.bind_some]; exact pushed, h₂⟩
    · cases he

/-- A machine with room for the highest stack does what a program does. -/
theorem Program.run?_of_exec? {code : List Instr} (h : m.Holds stack)
    (he : exec? store code stack = some after)
    (fits : ∀ pre, pre <+: code → height stack.length pre ≤ places) :
    ∃ m', run? store code m = some m' ∧ m'.Holds after := by
  induction code generalizing stack m with
  | nil => cases he; exact ⟨m, rfl, h⟩
  | cons instr rest ih =>
    obtain ⟨middle, he₁, he₂⟩ := Option.bind_eq_some_iff.mp he
    have length : middle.length = stack.length + 1 - instr.pops :=
      Nat.eq_sub_of_add_eq (instr.length_of_exec? he₁).2
    have here := fits [instr] (List.cons_prefix_cons.mpr ⟨rfl, List.nil_prefix⟩)
    obtain ⟨m₁, run₁, h₁⟩ := instr.run?_of_exec? h he₁ (length ▸ here)
    have later : ∀ pre, pre <+: rest → height middle.length pre ≤ places := by
      intro pre hp
      rw [length]
      exact fits (instr :: pre) (List.cons_prefix_cons.mpr ⟨rfl, hp⟩)
    obtain ⟨m₂, run₂, h₂⟩ := ih h₁ he₂ later
    exact ⟨m₂, by rw [run?, run₁, Option.bind_some, run₂], h₂⟩

end Formula
