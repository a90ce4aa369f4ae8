import Formula.Number.Exact
import Formula.Program.Basic

/-!
# Running programs

A machine keeps its stack in a fixed number of places, from the lowest one up, and knows
how many of them are taken. A number that is taken off stays in its place until another
one is put there. A machine stops without a result if it would have to reach below the
stack or above its last place. A program that was laid out never stops that way.

`Program.eval` picks the smallest of three machines that is large enough, and does
without one for a program that is one number.
-/

namespace Formula

/-- Numbers in places, of which the first ones are the stack. -/
structure Machine (places : Nat) where
  slots : Vector Float places
  /-- How many places the stack takes. -/
  top : Nat

namespace Machine

variable {places : Nat}

/-- The machine with nothing on its stack. -/
def empty (places : Nat) : Machine places :=
  ⟨.replicate places 0, 0⟩

/-- Puts a number on the stack. -/
def push? (m : Machine places) (value : Float) : Option (Machine places) :=
  if _room : m.top < places then some ⟨m.slots.set m.top value, m.top + 1⟩ else none

/-- Takes the number on top off the stack. -/
def pop? (m : Machine places) : Option (Float × Machine places) :=
  match m.top with
  | 0 => none
  | top + 1 => m.slots[top]?.map fun value => (value, { m with top })

/-- Takes some numbers off the stack, the lowest first. -/
def take? (m : Machine places) (count : Nat) : Option (List Float × Machine places) :=
  if count ≤ m.top ∧ m.top ≤ places then
    some ((m.slots.toList.take m.top).drop (m.top - count), { m with top := m.top - count })
  else none

/-- The number that is left on the stack. -/
def result? (m : Machine places) : Option Float :=
  if m.top = 1 then m.slots[0]? else none

end Machine

/-- What an instruction makes of a machine. -/
def Instr.run? {places : Nat} (store : Store) (instr : Instr) (m : Machine places) :
    Option (Machine places) :=
  match instr with
  | const value => m.push? value
  | load _ cell => m.push? (store cell)
  | neg => m.pop?.bind fun (x, m) => m.push? (-x)
  | op o => m.pop?.bind fun (y, m) => m.pop?.bind fun (x, m) => m.push? (o.apply x y)
  | call1 _ f => m.pop?.bind fun (x, m) => m.push? (f x)
  | call2 _ f => m.pop?.bind fun (y, m) => m.pop?.bind fun (x, m) => m.push? (f x y)
  | callN _ count f => (m.take? count).bind fun (args, m) => m.push? (f args)

namespace Program

/-- What a list of instructions makes of a machine. -/
def run? {places : Nat} (store : Store) : List Instr → Machine places → Option (Machine places)
  | [], m => some m
  | instr :: rest, m => (instr.run? store m).bind (run? store rest)

/-- The number of places of the smallest machine that holds a number of values. -/
def places (depth : Nat) : Nat :=
  if depth ≤ 8 then 8 else if depth ≤ 32 then 32 else 256

/-- The value of a program in a store, which is `nan` only if a formula's value is or the
program was not laid out for an expression. -/
def eval (p : Program) (store : Store) : Float :=
  match p.code with
  | [.const value] => value
  | code =>
    ((run? store code (.empty (places p.depth))).bind Machine.result?).getD Number.nan

end Program

end Formula
