import Formula.Func
import Formula.Store

/-!
# Scopes

A scope says what names stand for. It is filled by binding one name after the other,
and the first binding of a name stays: `find?_bind`, `find?_ofList`.
-/

namespace Formula

/-- What a name stands for. -/
inductive Binding where
  /-- What a cell holds when the value of the formula is computed. -/
  | cell (cell : Cell)
  /-- A number. -/
  | constant (value : Float)
  /-- A function. -/
  | function (primitive : Primitive)

namespace Binding

/-- A function of one argument. -/
def unary (f : Float → Float) : Binding :=
  function (.unary f)

/-- A function of two arguments. -/
def binary (f : Float → Float → Float) : Binding :=
  function (.binary f)

/-- A function of as many arguments as an arity accepts. -/
def variadic (arity : Arity) (f : List Float → Float) : Binding :=
  function (.variadic arity f)

end Binding

/-- Names and what they stand for, in the order in which they were bound. -/
structure Scope where
  entries : List (String × Binding)
  /-- No name is bound twice. -/
  distinct : (entries.map Prod.fst).Nodup

namespace Scope

/-- The scope that binds nothing. -/
def empty : Scope :=
  ⟨[], .nil⟩

/-- The bound names in the order in which they were bound. -/
def names (s : Scope) : List String :=
  s.entries.map Prod.fst

/-- How many names are bound. -/
def size (s : Scope) : Nat :=
  s.entries.length

/-- What a name is bound to. -/
def find? (s : Scope) (name : String) : Option Binding :=
  s.entries.lookup name

/-- Binds a name that is not bound yet. -/
def bind (s : Scope) (name : String) (binding : Binding) : Scope :=
  if bound : name ∈ s.names then s
  else
    { entries := s.entries ++ [(name, binding)]
      distinct := by
        have := s.distinct
        simp only [names] at bound
        grind [List.nodup_append] }

/-- Binds a name to a cell. -/
def withCell (s : Scope) (name : String) (cell : Cell) : Scope :=
  s.bind name (.cell cell)

/-- Binds a name to a number. -/
def withConstant (s : Scope) (name : String) (value : Float) : Scope :=
  s.bind name (.constant value)

/-- Binds a name to a function of one argument. -/
def withUnary (s : Scope) (name : String) (f : Float → Float) : Scope :=
  s.bind name (.unary f)

/-- Binds a name to a function of two arguments. -/
def withBinary (s : Scope) (name : String) (f : Float → Float → Float) : Scope :=
  s.bind name (.binary f)

/-- Binds a name to a function of as many arguments as an arity accepts. -/
def withVariadic (s : Scope) (name : String) (arity : Arity) (f : List Float → Float) : Scope :=
  s.bind name (.variadic arity f)

/-- Binds the names of a list from left to right. -/
def extend (s : Scope) (bindings : List (String × Binding)) : Scope :=
  bindings.foldl (fun s (name, binding) => s.bind name binding) s

/-- The scope of a list of bindings. -/
def ofList (bindings : List (String × Binding)) : Scope :=
  empty.extend bindings

/-- The names of a list whose bindings are not used, since they are bound before. -/
def rebound (s : Scope) : List (String × Binding) → List String
  | [] => []
  | (name, binding) :: rest =>
    let later := (s.bind name binding).rebound rest
    if name ∈ s.names then name :: later else later

theorem find?_empty (name : String) : empty.find? name = none := rfl

theorem find?_eq_none_iff {s : Scope} {name : String} :
    s.find? name = none ↔ name ∉ s.names := by
  simp only [find?, names, List.lookup_eq_none_iff]
  grind

/-- Binding a name changes what it stands for only if it stood for nothing. -/
theorem find?_bind (s : Scope) (name other : String) (binding : Binding) :
    (s.bind name binding).find? other =
      (s.find? other).or (if other = name then some binding else none) := by
  simp only [bind]
  split
  · rename_i bound
    by_cases h : other = name
    · subst h
      cases found : s.find? other with
      | none => exact absurd bound (find?_eq_none_iff.mp found)
      | some => rfl
    · simp [h]
  · simp only [find?, List.lookup_append, List.lookup_cons, List.lookup_nil]
    by_cases h : other = name
    · simp [h]
    · simp [h, beq_eq_false_iff_ne.mpr h]

theorem find?_extend (s : Scope) (bindings : List (String × Binding)) (name : String) :
    (s.extend bindings).find? name = (s.find? name).or (bindings.lookup name) := by
  induction bindings generalizing s with
  | nil => simp [extend]
  | cons entry rest ih =>
    obtain ⟨first, binding⟩ := entry
    simp only [extend, List.foldl_cons] at ih ⊢
    rw [ih, find?_bind, List.lookup_cons]
    by_cases h : name = first
    · cases s.find? name <;> simp [h]
    · simp [h, beq_eq_false_iff_ne.mpr h]

/-- The first binding of a name is the one that counts. -/
theorem find?_ofList (bindings : List (String × Binding)) (name : String) :
    (ofList bindings).find? name = bindings.lookup name := by
  simp [ofList, find?_extend, find?_empty]

end Scope

end Formula
