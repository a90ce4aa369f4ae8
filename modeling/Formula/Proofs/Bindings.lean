import Formula.Proofs.Folding
import Formula.Proofs.Rebinding
import Formula.Proofs.Transparent

/-!
# Which bindings count

Of the bindings that are put into a scope, the first one of each name that is in a text decides
what the text is compiled to, and no others do (`compile_first_bindings`). A name that is bound
to a number can be bound to a cell instead that holds this number when the formula is evaluated
(`constant_as_cell`).
-/

namespace Formula

open Except (ok error)

namespace Scope

/-- A scope into which bindings were put one after the other, in any of the ways to do so. -/
inductive Filled : Scope → List (String × Binding) → Prop where
  | empty : Filled .empty []
  | ofList (bindings : List (String × Binding)) : Filled (.ofList bindings) bindings
  | bind {s : Scope} {fed : List (String × Binding)} (name : String) (binding : Binding) :
      Filled s fed → Filled (s.bind name binding) (fed ++ [(name, binding)])
  | withCell {s : Scope} {fed : List (String × Binding)} (name : String) (cell : Cell) :
      Filled s fed → Filled (s.withCell name cell) (fed ++ [(name, .cell cell)])
  | withConstant {s : Scope} {fed : List (String × Binding)} (name : String) (value : Float) :
      Filled s fed → Filled (s.withConstant name value) (fed ++ [(name, .constant value)])
  | withUnary {s : Scope} {fed : List (String × Binding)} (name : String) (f : Float → Float) :
      Filled s fed → Filled (s.withUnary name f) (fed ++ [(name, .unary f)])
  | withBinary {s : Scope} {fed : List (String × Binding)} (name : String)
      (f : Float → Float → Float) :
      Filled s fed → Filled (s.withBinary name f) (fed ++ [(name, .binary f)])
  | withVariadic {s : Scope} {fed : List (String × Binding)} (name : String) (arity : Arity)
      (f : List Float → Float) :
      Filled s fed → Filled (s.withVariadic name arity f) (fed ++ [(name, .variadic arity f)])
  | extend {s : Scope} {fed : List (String × Binding)} (bindings : List (String × Binding)) :
      Filled s fed → Filled (s.extend bindings) (fed ++ bindings)

theorem find?_extend_of_lookup {s : Scope} {fed : List (String × Binding)} {name : String}
    (h : s.find? name = fed.lookup name) (bindings : List (String × Binding)) :
    (s.extend bindings).find? name = (fed ++ bindings).lookup name := by
  rw [find?_extend, h, List.lookup_append]

/-- A name stands for what the first of its bindings says. -/
theorem Filled.find?_eq {s : Scope} {fed : List (String × Binding)} (h : s.Filled fed)
    (name : String) : s.find? name = fed.lookup name := by
  induction h with
  | empty => rfl
  | ofList bindings => exact find?_ofList bindings name
  | bind | withCell | withConstant | withUnary | withBinary | withVariadic =>
    -- a scope with one more binding is one extended by a list of one
    rename_i ih
    exact find?_extend_of_lookup ih [(_, _)]
  | extend bindings _ ih => exact find?_extend_of_lookup ih bindings

end Scope

/-- A binding of a name of which no cell is known stays what it is. -/
theorem Binding.subst_of_unknown {known : Known} {name : String}
    (h : ∀ cell, known name cell = none) (b : Binding) : b.subst known name = b := by
  cases b with
  | cell c => rw [subst, h]; rfl
  | constant | function => rfl

theorem Scope.resolve_congr {s s' : Scope} {name : String} (h : s.find? name = s'.find? name) :
    s.resolve name = s'.resolve name := by
  rw [resolve, resolve, h]

/-- Only the first bindings of the names in a text count: scopes that were filled with bindings
of which this is the same, if there is one, give the same program or the same error. -/
theorem compile_first_bindings {s s' : Scope} {fed fed' : List (String × Binding)}
    (h : s.Filled fed) (h' : s'.Filled fed') {source : String}
    (same : ∀ token ∈ tokens source, token.kind = .name →
      fed.lookup token.text = fed'.lookup token.text)
    (options : Options) : compile options s source = compile options s' source := by
  have names : ∀ token ∈ tokens source, token.Rebound (fun _ _ => none) s' s := by
    intro token ht name
    have found : s.find? token.text = s'.find? token.text := by
      rw [h.find?_eq, h'.find?_eq, same token ht name]
    rw [Scope.resolve_congr found]
    cases s'.resolve token.text with
    | none => rfl
    | some b => exact congrArg some (b.subst_of_unknown fun _ => rfl).symm
  have parsed := parse_rebind names options.maxLevels
  have unchanged : parse s options.maxLevels source = parse s' options.maxLevels source := by
    rw [parsed]
    cases parse s' options.maxLevels source with
    | error => rfl
    | ok e => exact congrArg ok e.subst_none
  rw [compile, compile, unchanged]

/-- A second binding of a name does not count, nor does one of a name that is not in the text. -/
theorem compile_first_bindings_rebound :
    compile {} ((Scope.empty.withConstant "g" 9.81).withCell "g" "height") "-g" =
      compile {} (.ofList [("pi", .constant 3), ("g", .constant 9.81)]) "-g" := by
  have found : tokens "-g" = [⟨.operator .sub, ⟨0, 1⟩, "-"⟩, ⟨.name, ⟨1, 2⟩, "g"⟩] := by
    decide +kernel
  refine compile_first_bindings (.withCell _ _ (.withConstant _ _ .empty)) (.ofList _) ?_ {}
  rw [found]
  refine List.forall_mem_cons.mpr ⟨fun name => ?_, List.forall_mem_singleton.mpr fun _ => rfl⟩
  cases name

/-! ## Numbers and cells -/

section

variable {scope scope' : Scope} {name : String} {value : Float} {cell : Cell}

/-- The one variable that is known to hold a value. -/
def Known.only (name : String) (cell : Cell) (value : Float) : Known :=
  fun name' cell' => if name' = name ∧ cell' = cell then some value else none

theorem Known.only_eq_some_iff {name' : String} {cell' : Cell} {value' : Float} :
    only name cell value name' cell' = some value' ↔
      (name' = name ∧ cell' = cell) ∧ value = value' := by
  simp [only]

/-- A name is bound to a number instead of a cell. -/
structure Scope.Settles (scope scope' : Scope) (name : String) (cell : Cell) (value : Float) :
    Prop where
  number : scope.find? name = some (.constant value)
  cell : scope'.find? name = some (.cell cell)
  others : ∀ other, other ≠ name → scope.find? other = scope'.find? other

theorem Scope.Settles.rebound (h : scope.Settles scope' name cell value) (token : Token) :
    token.Rebound (.only name cell value) scope' scope := by
  intro _
  by_cases own : token.text = name
  · rw [own, resolve, resolve, h.number, h.cell]
    simp [Binding.subst, Known.only]
  · rw [resolve_congr (h.others _ own)]
    cases scope'.resolve token.text with
    | none => rfl
    | some b => exact congrArg some (b.subst_of_unknown (by simp [Known.only, own])).symm

theorem Scope.Settles.parse_eq (h : scope.Settles scope' name cell value) (maxLevels : Nat)
    (source : String) :
    parse scope maxLevels source =
      (parse scope' maxLevels source).map (Expr.subst (.only name cell value)) :=
  parse_rebind (fun token _ => h.rebound token) maxLevels

/-- A text that has a program with the cell has one with the number, under the same options. -/
theorem Scope.Settles.exists_compile (h : scope.Settles scope' name cell value)
    {options : Options} {source : String} {p : Program}
    (compiled : compile options scope' source = ok p) :
    ∃ q, compile options scope source = ok q := by
  obtain ⟨short, e, parsed, laid⟩ := compile_eq_ok_iff.mp compiled
  have accepted := accepted_of_parse parsed
  obtain ⟨room, -⟩ := (Program.ofExpr_eq_ok_iff (options.accepted_prepare accepted)).mp laid
  have settled : parse scope options.maxLevels source = ok (e.subst (.only name cell value)) := by
    rw [h.parse_eq, parsed]
    rfl
  have room' := Nat.le_trans (options.need_prepare_subst_le (.only name cell value) e) room
  have laid' := (Program.ofExpr_eq_ok_iff
    (options.accepted_prepare (accepted.subst (.only name cell value)))).mpr ⟨room', rfl⟩
  exact ⟨_, compile_eq_ok_iff.mpr ⟨short, _, settled, laid'⟩⟩

/-- Programs with the number and with the cell have the same value if the cell holds it. -/
theorem Scope.Settles.eval_eq (h : scope.Settles scope' name cell value)
    {options options' : Options} {source : String} {p q : Program}
    (compiled : compile options scope source = ok p)
    (compiled' : compile options' scope' source = ok q) {store : Store}
    (holds : store cell = value) : p.eval store = q.eval store := by
  obtain ⟨e, parsed, he⟩ := eval_of_compile compiled
  obtain ⟨e', parsed', he'⟩ := eval_of_compile compiled'
  -- the options may allow different numbers of levels, and what is read with the smaller one is
  -- read with the larger one
  have high := parse_mono parsed (Nat.le_max_left options.maxLevels options'.maxLevels)
  have high' := parse_mono parsed' (Nat.le_max_right options.maxLevels options'.maxLevels)
  rw [h.parse_eq, high'] at high
  obtain rfl : e'.subst (.only name cell value) = e := by injection high
  rw [he, he', Expr.eval_subst]
  intro name' cell' value' known
  obtain ⟨⟨-, rfl⟩, rfl⟩ := Known.only_eq_some_iff.mp known
  exact holds

/-- A number that is known when a text is compiled can be held by a cell when it is evaluated:
what compiles with the cell compiles with the number, and if both do, under whatever options,
the values are the same in every store in which the cell holds the number. -/
theorem constant_as_cell (h : scope.Settles scope' name cell value) (source : String) :
    (∀ options p, compile options scope' source = ok p →
      ∃ q, compile options scope source = ok q) ∧
    ∀ options options' p q, compile options scope source = ok p →
      compile options' scope' source = ok q →
      ∀ store : Store, store cell = value → p.eval store = q.eval store :=
  ⟨fun _ _ compiled => h.exists_compile compiled,
    fun _ _ _ _ compiled compiled' _ holds => h.eval_eq compiled compiled' holds⟩

end

/-- With the number all of this text is folded, and with the cell nothing is. -/
theorem constant_as_cell_max :
    ∃ p q, compile {} (Scope.builtin.withConstant "x" 2) "max(x, 3) - x" = ok p ∧
      compile {} (Scope.builtin.withCell "x" "a") "max(x, 3) - x" = ok q ∧
      p.size = 1 ∧ q.size = 5 ∧ ∀ store : Store, store "a" = 2 → p.eval store = q.eval store := by
  have five : ((compile {} (Scope.builtin.withCell "x" "a") "max(x, 3) - x").map
      Program.size).toOption = some 5 := by decide +kernel
  have one : ((compile {} (Scope.builtin.withConstant "x" 2) "max(x, 3) - x").map
      Program.size).toOption = some 1 := by decide +kernel
  obtain ⟨q, hq, size⟩ := Program.exists_of_map five
  obtain ⟨p, hp, size'⟩ := Program.exists_of_map one
  have settles : (Scope.builtin.withConstant "x" 2).Settles (Scope.builtin.withCell "x" "a")
      "x" "a" 2 := by
    refine ⟨rfl, rfl, fun other ne => ?_⟩
    rw [Scope.withConstant, Scope.withCell, Scope.find?_bind, Scope.find?_bind, if_neg ne,
      if_neg ne]
  obtain ⟨compiles, value⟩ := constant_as_cell settles "max(x, 3) - x"
  obtain ⟨p', hp'⟩ := compiles {} q hq
  cases hp.symm.trans hp'
  exact ⟨p, q, hp, hq, size', size, value {} {} p q hp hq⟩

end Formula
