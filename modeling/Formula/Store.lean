/-!
# Stores

Variables are read from cells that belong to the caller. A store is what the cells
hold at one time; computing a value reads a store and never changes one.

The numbers are doubles, here and in expressions and programs. Doubles that are equal
have the same bits, so the two zeros differ. But there is one `nan` only, without a sign
and without other bits that would tell one `nan` from another
(`Number.eq_of_isNaN`). So wherever two values are said to be equal, they are equal up to
which `nan` they are.
-/

namespace Formula

/-- A place that holds a number, known by its name. -/
abbrev Cell := String

/-- What every cell holds. -/
abbrev Store := Cell → Float

namespace Store

/-- The store in which the cells of a list hold what the list says first of them,
and all other cells hold zero. -/
def ofList (contents : List (Cell × Float)) : Store :=
  fun cell => (contents.lookup cell).getD 0

/-- The store in which one cell holds a new value. -/
def set (store : Store) (cell : Cell) (value : Float) : Store :=
  fun other => if other = cell then value else store other

end Store

end Formula
