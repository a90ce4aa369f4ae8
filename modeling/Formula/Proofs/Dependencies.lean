import Formula.Proofs.Folding
import Formula.Proofs.Grammar.Sound
import Formula.Proofs.Savings

/-!
# What a formula depends on

The variables of a text are its names that stand for cells. Reading keeps their order
(`Derives.loads`), laying out keeps it (`Expr.loads_tree`), and folding loses none of them. So
the names that a program reads are those of the variables, in the order in which they first
appear, and the program has the same value in all stores that agree on their cells
(`names_exact`).
-/

namespace Formula

open Except (ok error)

/-- The name and the cell that an instruction reads. -/
def Instr.load? : Instr → Option (String × Cell)
  | load name cell => some (name, cell)
  | _ => none

theorem Instr.reads?_eq (instr : Instr) : instr.reads? = instr.load?.map Prod.fst := by
  cases instr <;> rfl

theorem Func.load?_instr (func : Func) (count : Nat) : (func.instr count).load? = none := by
  obtain ⟨name, primitive⟩ := func
  cases primitive <;> rfl

/-- The name and the cell that a token reads. -/
def Token.load? (scope : Scope) (token : Token) : Option (String × Cell) :=
  match token.kind, scope.resolve token.text with
  | .name, some (.cell cell) => some (token.text, cell)
  | _, _ => none

theorem Token.load?_eq_some_iff {scope : Scope} {token : Token} {name : String} {cell : Cell} :
    token.load? scope = some (name, cell) ↔
      token.kind = .name ∧ scope.resolve token.text = some (.cell cell) ∧ token.text = name := by
  unfold load?
  split <;> simp_all [and_comm]

/-- A token that is no name is no variable. -/
theorem Token.load?_of_kind {scope : Scope} {token : Token} {kind : Kind}
    (h : token.kind = kind) (other : kind ≠ .name) : token.load? scope = none := by
  unfold load?
  split
  · rename_i name _
    exact absurd (h.symm.trans name) other
  · rfl

/-- A name that stands for no cell is no variable. -/
theorem Token.load?_of_resolve {scope : Scope} {token : Token} {b : Binding}
    (h : scope.resolve token.text = some b) (other : ∀ cell, b ≠ .cell cell) :
    token.load? scope = none := by
  unfold load?
  split
  · rename_i cell _ found
    exact absurd (Option.some.inj (h.symm.trans found)) (other cell)
  · rfl

/-- The variables among tokens, in their order. -/
def Scope.loads (scope : Scope) (ts : List Token) : List (String × Cell) :=
  ts.filterMap (Token.load? scope)

section

variable {scope : Scope} {token : Token}

theorem Scope.loads_append (ts us : List Token) :
    scope.loads (ts ++ us) = scope.loads ts ++ scope.loads us :=
  List.filterMap_append

theorem Scope.loads_skip {kind : Token.Kind} (h : token.kind = kind) (other : kind ≠ .name)
    (ts : List Token) : scope.loads (token :: ts) = scope.loads ts :=
  List.filterMap_cons_none (Token.load?_of_kind h other)

theorem Scope.loads_skip_bound {b : Binding} (h : scope.resolve token.text = some b)
    (other : ∀ cell, b ≠ .cell cell) (ts : List Token) :
    scope.loads (token :: ts) = scope.loads ts :=
  List.filterMap_cons_none (Token.load?_of_resolve h other)

end

/-! ## From expressions to trees -/

namespace Tree

mutual

/-- The variables of a tree from left to right, each as often as it is there. -/
def loads : Tree → List (String × Cell)
  | literal _ => []
  | var name cell => [(name, cell)]
  | neg operand => operand.loads
  | binary _ left right => left.loads ++ right.loads
  | call _ args => loadsArgs args
termination_by structural t => t

/-- The variables of arguments from left to right. -/
def loadsArgs : List Tree → List (String × Cell)
  | [] => []
  | arg :: rest => arg.loads ++ loadsArgs rest
termination_by structural args => args

end

theorem loadsArgs_eq_flatMap (args : List Tree) : loadsArgs args = args.flatMap loads := by
  induction args with
  | nil => rfl
  | cons arg rest ih => rw [loadsArgs, ih, List.flatMap_cons]

end Tree

namespace Expr

/-- The variables that some instructions read, in their order. -/
def loads (code : List Placed) : List (String × Cell) :=
  code.filterMap fun placed => placed.instr.load?

theorem loads_append (a b : List Placed) : loads (a ++ b) = loads a ++ loads b :=
  List.filterMap_append

theorem names_eq_map_loads (code : List Placed) : names code = (loads code).map Prod.fst := by
  simp only [names, loads, List.map_filterMap, Instr.reads?_eq]

theorem loads_treeSteps {steps : List (Step Expr)}
    (h : ∀ step ∈ steps, step.operand.tree.loads = loads step.operand.instructions)
    (left : Tree) :
    (treeSteps left steps).loads = left.loads ++ loads (stepInstructions steps) := by
  induction steps generalizing left with
  | nil => exact (List.append_nil _).symm
  | cons step rest ih =>
    obtain ⟨here, later⟩ := List.forall_mem_cons.mp h
    rw [treeSteps, ih later, Tree.loads, here, stepInstructions, loads_append, List.append_assoc]
    rfl

theorem loads_treeArgs {args : List Expr}
    (h : ∀ arg ∈ args, arg.tree.loads = loads arg.instructions) :
    Tree.loadsArgs (treeArgs args) = loads (argInstructions args) := by
  induction args with
  | nil => rfl
  | cons arg rest ih =>
    obtain ⟨here, later⟩ := List.forall_mem_cons.mp h
    rw [treeArgs, Tree.loadsArgs, here, ih later, argInstructions, loads_append]

/-- Instructions read the variables of an expression from left to right. -/
theorem loads_tree (e : Expr) : e.tree.loads = loads e.instructions := by
  induction e using Expr.induction with
  | literal | var => rfl
  | neg _ _ _ ih =>
    rw [tree, Tree.loads, ih, instructions, loads_append]
    exact (List.append_nil _).symm
  | run _ _ _ ih ihs => rw [tree, loads_treeSteps ihs, ih, instructions, loads_append]
  | call _ func args ih =>
    rw [tree, Tree.loads, loads_treeArgs ih, instructions, loads_append]
    simp [loads, Func.load?_instr]

end Expr

/-! ## From trees to tokens -/

section

open Scope (loads_append loads_skip loads_skip_bound)

/-- Commas between sequences add no variable. -/
theorem Separated.loads {scope : Scope} {parts : List (List Token)} {ts : List Token}
    (h : Separated parts ts) : scope.loads ts = parts.flatMap scope.loads := by
  induction h with
  | one => rw [List.flatMap_singleton]
  | more comma _ ih => rw [loads_append, loads_skip comma (by simp), ih, List.flatMap_cons]

/-- A tree has the variables of its tokens, in their order. -/
theorem Derives.loads {scope : Scope} {levels : Nat} {layer : Layer} {ts : List Token} {t : Tree}
    (h : Derives scope levels layer ts t) : t.loads = scope.loads ts := by
  induction h with
  | ofProduct _ ih | ofSigned _ ih | ofPower _ ih | ofAtom _ ih => exact ih
  | sum _ kind _ _ ih₁ ih₂ | product _ kind _ _ ih₁ ih₂ | power _ kind _ ih₁ ih₂ =>
    rw [Tree.loads, ih₁, ih₂, loads_append, loads_skip kind (by simp)]
  | minus kind _ ih | plus kind _ ih =>
    rw [loads_skip kind (by simp)]
    exact ih
  | number kind =>
    rw [loads_skip kind (by simp)]
    rfl
  | constant _ found =>
    rw [loads_skip_bound found (by simp)]
    rfl
  | var kind found =>
    rw [Scope.loads, List.filterMap_cons_some (Token.load?_eq_some_iff.mpr ⟨kind, found, rfl⟩)]
    rfl
  | paren opening _ closing ih =>
    rw [loads_skip opening (by simp), loads_append, loads_skip closing (by simp), ih]
    exact (List.append_nil _).symm
  | callEmpty _ found opening closing =>
    rw [loads_skip_bound found (by simp), loads_skip opening (by simp),
      loads_skip closing (by simp)]
    rfl
  | call _ found opening _ separated closing _ ih =>
    rw [loads_skip_bound found (by simp), loads_skip opening (by simp), loads_append,
      loads_skip closing (by simp), separated.loads, Tree.loads,
      Tree.loadsArgs_eq_flatMap, List.flatMap_map, List.flatMap_map, List.flatMap_def,
      List.flatMap_def, List.map_congr_left ih]
    exact (List.append_nil _).symm

/-- The instructions of the expression of a text read its variables in their order. -/
theorem loads_of_parse {scope : Scope} {maxLevels : Nat} {source : String} {e : Expr}
    (h : parse scope maxLevels source = ok e) :
    Expr.loads e.instructions = scope.loads (tokens source) := by
  obtain ⟨levels, derived⟩ := derives_of_parse h
  rw [← e.loads_tree, derived.loads]

end

/-! ## The names of a program -/

/-- What is not in a list yet is added at its end, item by item. -/
theorem foldl_add_new {α : Type} [DecidableEq α] (found list : List α) :
    list.foldl (fun found a => if a ∈ found then found else found ++ [a]) found =
      found ++ (list.filter (· ∉ found)).eraseDups := by
  induction list generalizing found with
  | nil => exact (List.append_nil _).symm
  | cons a rest ih =>
    rw [List.foldl_cons, ih]
    by_cases mem : a ∈ found
    · simp [mem]
    · have later : rest.filter (· ∉ found ++ [a]) =
          (rest.filter (· ∉ found)).filter (! · == a) := by
        rw [List.filter_filter]
        exact List.filter_congr fun b _ => by grind
      rw [if_neg mem, later, List.filter_cons_of_pos (by simpa using mem), List.eraseDups_cons,
        List.append_assoc, List.singleton_append]

theorem Program.names_ofExpr {e : Expr} {p : Program} (h : ofExpr e = ok p) :
    p.names = (Expr.names e.instructions).eraseDups := by
  rw [names_eq_foldl, foldl_add_new, List.nil_append, List.filter_eq_self.mpr (by simp),
    (ofExpr_eq_ok h).1, Expr.code, List.filterMap_map]
  rfl

theorem Options.names_prepare (options : Options) (e : Expr) :
    Expr.names (options.prepare e).instructions = Expr.names e.instructions :=
  (options.load_prepare e).names

/-! ## The cells of a program -/

section

variable {store store' : Store}

theorem Instr.exec?_congr {instr : Instr} (same : ∀ v ∈ instr.load?, store v.2 = store' v.2)
    (stack : List Float) : instr.exec? store stack = instr.exec? store' stack := by
  cases instr with
  | load name cell => rw [exec?, exec?, same (name, cell) rfl]
  | const | callN => rfl
  | neg | call1 => cases stack <;> rfl
  | op | call2 => rcases stack with _ | ⟨_, _ | _⟩ <;> rfl

/-- Instructions do the same in all stores that agree on the cells they read. -/
theorem Program.exec?_congr {code : List Instr}
    (same : ∀ instr ∈ code, ∀ v ∈ instr.load?, store v.2 = store' v.2) (stack : List Float) :
    exec? store code stack = exec? store' code stack := by
  induction code generalizing stack with
  | nil => rfl
  | cons instr rest ih =>
    obtain ⟨here, later⟩ := List.forall_mem_cons.mp same
    rw [exec?, exec?, Instr.exec?_congr here, funext (ih later)]

/-- An expression has the same value in all stores that agree on the cells it reads. -/
theorem Expr.eval_congr {e : Expr} (accepted : e.Accepted)
    (same : ∀ v ∈ loads e.instructions, store v.2 = store' v.2) :
    e.eval store = e.eval store' := by
  have executed : Program.exec? store e.code [] = Program.exec? store' e.code [] := by
    refine Program.exec?_congr (List.forall_mem_map.mpr fun placed hp v hv => ?_) []
    exact same v (List.mem_filterMap.mpr ⟨placed, hp, hv⟩)
  rw [exec?_code store accepted, exec?_code store' accepted] at executed
  exact (List.cons.inj (Option.some.inj executed)).1

end

/-- The names that a program reads, from the variables of its text. -/
theorem names_of_compile {options : Options} {scope : Scope} {source : String} {p : Program}
    (h : compile options scope source = ok p) :
    p.names = ((scope.loads (tokens source)).map Prod.fst).eraseDups := by
  obtain ⟨e, parsed, -, laid⟩ := compile_eq_ok h
  rw [Program.names_ofExpr laid, options.names_prepare, Expr.names_eq_map_loads,
    loads_of_parse parsed]

/-- The names that a program reads are the variables of its text, in the order in which they
first appear and each once, and its value depends on the cells of these names only. -/
theorem names_exact {options : Options} {scope : Scope} {source : String} {p : Program}
    (h : compile options scope source = ok p) :
    p.names = ((scope.loads (tokens source)).map Prod.fst).eraseDups ∧
      ∀ store store' : Store,
        (∀ name ∈ p.names, ∀ cell, scope.resolve name = some (.cell cell) →
          store cell = store' cell) →
        p.eval store = p.eval store' := by
  obtain ⟨e, parsed, accepted, laid⟩ := compile_eq_ok h
  have names := names_of_compile h
  refine ⟨names, fun store store' same => ?_⟩
  rw [Program.eval_ofExpr laid (options.accepted_prepare accepted),
    Program.eval_ofExpr laid (options.accepted_prepare accepted), options.eval_prepare,
    options.eval_prepare]
  refine Expr.eval_congr accepted fun (name, cell) hv => ?_
  rw [loads_of_parse parsed] at hv
  have read : name ∈ p.names := by
    rw [names, List.mem_eraseDups]
    exact List.mem_map.mpr ⟨_, hv, rfl⟩
  obtain ⟨token, -, found⟩ := List.mem_filterMap.mp hv
  obtain ⟨-, resolved, rfl⟩ := Token.load?_eq_some_iff.mp found
  exact same _ read _ resolved

/-- Two names of one cell are two names, and the number that is folded away is none. -/
theorem names_exact_shared :
    ∃ p, compile {} ((Scope.builtin.withCell "x" "a").withCell "y" "a") "y - max(2 * 3, x, y)" =
        ok p ∧
      p.names = ["y", "x"] ∧
      ∀ store store' : Store, store "a" = store' "a" → p.eval store = p.eval store' := by
  have six : ((compile {} ((Scope.builtin.withCell "x" "a").withCell "y" "a")
      "y - max(2 * 3, x, y)").map Program.size).toOption = some 6 := by decide +kernel
  obtain ⟨p, hp, -⟩ := Program.exists_of_map six
  obtain ⟨names, value⟩ := names_exact hp
  have found : Scope.loads ((Scope.builtin.withCell "x" "a").withCell "y" "a")
      (tokens "y - max(2 * 3, x, y)") = [("y", "a"), ("x", "a"), ("y", "a")] := by decide +kernel
  rw [found] at names
  have both : p.names = ["y", "x"] := names
  refine ⟨p, hp, both, fun store store' same => value store store' fun name read cell bound => ?_⟩
  rw [both, List.mem_cons, List.mem_singleton] at read
  rcases read with rfl | rfl <;> cases bound <;> exact same

end Formula
