import Formula.Proofs.Depth
import Formula.Proofs.Grammar.Complete
import Formula.Proofs.Need

/-!
# Tokens and instructions

What each token of a formula gives (`Gives`): a number, a name or an operator one instruction, a
parenthesis, a comma or a plus sign none. Whether an operator is a sign is told by what comes
before it, and the number of arguments of a call by the commas after its name (`argCount`).

The instructions of a program are those that the tokens of its text give, each once
(`code_corresponds`). They come in another order, as operators and functions go after their
operands, but those that take nothing off the stack keep their order (`Rearranged`).
-/

namespace Formula

open Except (ok error)

/-- Whether an instruction takes nothing off the stack. -/
def Instr.isLeaf (instr : Instr) : Bool :=
  instr.pops == 0

/-! ## What tokens give -/

/-- How many commas are in front of the parenthesis that closes the one `depth` others are in.
Commas inside of further parentheses do not count. -/
def commas : Nat → List Token → Nat
  | _, [] => 0
  | depth, token :: rest =>
    match token.kind with
    | .openParen => commas (depth + 1) rest
    | .closeParen => if depth = 0 then 0 else commas (depth - 1) rest
    | .comma => if depth = 0 then commas depth rest + 1 else commas depth rest
    | _ => commas depth rest

/-- How many arguments are in the parentheses that come after a name. -/
def argCount : List Token → Nat
  | _ :: first :: rest => if first.kind = .closeParen then 0 else commas 0 (first :: rest) + 1
  | _ => 0

/-- The instructions that tokens give, one after the other. The flag says whether an operand is
to come, so that an operator is a sign. -/
inductive Gives (scope : Scope) : Bool → List Token → List Instr → Prop where
  | nil : Gives scope false [] []
  | number {token : Token} {rest : List Token} {code : List Instr} {value : Float} :
      token.kind = .number value → Gives scope false rest code →
      Gives scope true (token :: rest) (.const value :: code)
  | constant {token : Token} {rest : List Token} {code : List Instr} {value : Float} :
      token.kind = .name → scope.resolve token.text = some (.constant value) →
      Gives scope false rest code → Gives scope true (token :: rest) (.const value :: code)
  | var {token : Token} {rest : List Token} {code : List Instr} {cell : Cell} :
      token.kind = .name → scope.resolve token.text = some (.cell cell) →
      Gives scope false rest code → Gives scope true (token :: rest) (.load token.text cell :: code)
  | function {token : Token} {rest : List Token} {code : List Instr} {primitive : Primitive} :
      token.kind = .name → scope.resolve token.text = some (.function primitive) →
      Gives scope false rest code →
      Gives scope true (token :: rest)
        (Func.instr ⟨token.text, primitive⟩ (argCount rest) :: code)
  | operator {token : Token} {rest : List Token} {code : List Instr} {op : Operator} :
      token.kind = .operator op → Gives scope true rest code →
      Gives scope false (token :: rest) (.op op :: code)
  | minus {token : Token} {rest : List Token} {code : List Instr} :
      token.kind = .operator .sub → Gives scope true rest code →
      Gives scope true (token :: rest) (.neg :: code)
  | plus {token : Token} {rest : List Token} {code : List Instr} :
      token.kind = .operator .add → Gives scope true rest code →
      Gives scope true (token :: rest) code
  /-- A parenthesis is opened where an operand is to come, or after the name of a function. -/
  | opening {operand : Bool} {token : Token} {rest : List Token} {code : List Instr} :
      token.kind = .openParen → Gives scope true rest code →
      Gives scope operand (token :: rest) code
  /-- A parenthesis is closed after an operand, or where it was opened for no argument. -/
  | closing {operand : Bool} {token : Token} {rest : List Token} {code : List Instr} :
      token.kind = .closeParen → Gives scope false rest code →
      Gives scope operand (token :: rest) code
  | comma {token : Token} {rest : List Token} {code : List Instr} :
      token.kind = .comma → Gives scope true rest code → Gives scope false (token :: rest) code

/-! ## Counting arguments -/

section Commas

variable {token : Token} {rest : List Token} {depth : Nat}

theorem commas_open (h : token.kind = .openParen) :
    commas depth (token :: rest) = commas (depth + 1) rest := by
  rw [commas, h]

theorem commas_close (h : token.kind = .closeParen) :
    commas (depth + 1) (token :: rest) = commas depth rest := by
  rw [commas, h]
  rfl

theorem commas_end (h : token.kind = .closeParen) : commas 0 (token :: rest) = 0 := by
  rw [commas, h]
  rfl

theorem commas_comma (h : token.kind = .comma) :
    commas depth (token :: rest) = commas depth rest + if depth = 0 then 1 else 0 := by
  rw [commas, h]
  simp only
  split <;> rfl

/-- Other tokens do not count. -/
theorem commas_skip {kind : Token.Kind} (h : token.kind = kind) (h₁ : kind ≠ .openParen)
    (h₂ : kind ≠ .closeParen) (h₃ : kind ≠ .comma) :
    commas depth (token :: rest) = commas depth rest := by
  subst h
  rw [commas]
  split <;> first | contradiction | rfl

end Commas

/-- Between parts in which none counts, the commas count if no parenthesis is open. -/
theorem Separated.commas {parts : List (List Token)} {ts : List Token} (h : Separated parts ts)
    (hp : ∀ part ∈ parts, ∀ depth rest, commas depth (part ++ rest) = commas depth rest)
    (depth : Nat) (rest : List Token) :
    Formula.commas depth (ts ++ rest) =
      Formula.commas depth rest + if depth = 0 then parts.length - 1 else 0 := by
  induction h with
  | one =>
    rw [hp _ (List.mem_singleton_self _)]
    simp
  | more comma later ih =>
    obtain ⟨here, others⟩ := List.forall_mem_cons.mp hp
    have some := List.length_pos_iff.mpr later.ne_nil
    rw [List.append_assoc, here, List.cons_append, commas_comma comma, ih others, List.length_cons]
    split <;> omega

/-- No comma of a formula counts outside of it. -/
theorem Derives.commas {scope : Scope} {levels : Nat} {layer : Layer} {ts : List Token} {t : Tree}
    (h : Derives scope levels layer ts t) (depth : Nat) (rest : List Token) :
    Formula.commas depth (ts ++ rest) = Formula.commas depth rest := by
  induction h generalizing depth rest with
  | ofProduct _ ih | ofSigned _ ih | ofPower _ ih | ofAtom _ ih => exact ih depth rest
  | sum _ kind _ _ ih₁ ih₂ | product _ kind _ _ ih₁ ih₂ | power _ kind _ ih₁ ih₂ =>
    rw [List.append_assoc, ih₁, List.cons_append,
      commas_skip kind (by simp) (by simp) (by simp), ih₂]
  | minus kind _ ih | plus kind _ ih =>
    rw [List.cons_append, commas_skip kind (by simp) (by simp) (by simp), ih]
  | number kind | constant kind | var kind =>
    exact commas_skip kind (by simp) (by simp) (by simp)
  | paren opening _ closing ih =>
    rw [List.cons_append, commas_open opening, List.append_assoc, ih]
    exact commas_close closing
  | callEmpty kind _ opening closing =>
    rw [List.cons_append, commas_skip kind (by simp) (by simp) (by simp), List.cons_append,
      commas_open opening]
    exact commas_close closing
  | call kind _ opening _ separated closing _ ih =>
    have inside := separated.commas (List.forall_mem_map.mpr ih) (depth + 1)
    rw [if_neg (Nat.succ_ne_zero depth)] at inside
    rw [List.cons_append, commas_skip kind (by simp) (by simp) (by simp), List.cons_append,
      commas_open opening, List.append_assoc, inside]
    exact commas_close closing

theorem argCount_empty {opening closing : Token} {rest : List Token}
    (h : closing.kind = .closeParen) : argCount (opening :: closing :: rest) = 0 :=
  if_pos h

/-- The arguments of a call are counted by the commas between them. -/
theorem Separated.argCount {scope : Scope} {levels : Nat} {args : List (List Token × Tree)}
    {ts rest : List Token} {opening closing : Token} (h : Separated (args.map Prod.fst) ts)
    (derived : ∀ arg ∈ args, Derives scope levels .sum arg.1 arg.2)
    (close : closing.kind = .closeParen) :
    argCount (opening :: (ts ++ closing :: rest)) = args.length := by
  have parts : ∀ part ∈ args.map Prod.fst, Starts part ∧ ∀ depth rest,
      Formula.commas depth (part ++ rest) = Formula.commas depth rest :=
    List.forall_mem_map.mpr fun arg ha => ⟨(derived arg ha).starts, (derived arg ha).commas⟩
  have counted := h.commas (fun part hp => (parts part hp).2) 0 (closing :: rest)
  obtain ⟨first, more, rfl, starts⟩ := h.starts fun part hp => (parts part hp).1
  have inner : first.kind ≠ .closeParen := by
    intro kind
    rw [kind] at starts
    cases starts
  have some := List.length_pos_iff.mpr h.ne_nil
  rw [commas_end close, if_pos rfl, List.length_map] at counted
  rw [List.length_map] at some
  rw [List.cons_append] at counted ⊢
  rw [Formula.argCount, if_neg inner, counted]
  omega

/-! ## From expressions to trees -/

namespace Tree

mutual

/-- The instructions that compute a tree. -/
def code : Tree → List Instr
  | literal value => [.const value]
  | var name cell => [.load name cell]
  | neg operand => operand.code ++ [.neg]
  | binary op left right => left.code ++ (right.code ++ [.op op])
  | call func args => codeArgs args ++ [func.instr args.length]
termination_by structural t => t

/-- The instructions that compute some arguments. -/
def codeArgs : List Tree → List Instr
  | [] => []
  | arg :: rest => arg.code ++ codeArgs rest
termination_by structural args => args

end

theorem codeArgs_eq_flatMap (args : List Tree) : codeArgs args = args.flatMap code := by
  induction args with
  | nil => rfl
  | cons arg rest ih => rw [codeArgs, ih, List.flatMap_cons]

end Tree

namespace Expr

theorem code_treeSteps {steps : List (Step Expr)}
    (h : ∀ step ∈ steps, step.operand.tree.code = step.operand.code) (left : Tree) :
    (treeSteps left steps).code = left.code ++ (stepInstructions steps).map Placed.instr := by
  induction steps generalizing left with
  | nil => exact (List.append_nil _).symm
  | cons step rest ih =>
    obtain ⟨here, later⟩ := List.forall_mem_cons.mp h
    rw [treeSteps, ih later, Tree.code, here, stepInstructions]
    simp [code]

theorem code_treeArgs {args : List Expr} (h : ∀ arg ∈ args, arg.tree.code = arg.code) :
    Tree.codeArgs (treeArgs args) = (argInstructions args).map Placed.instr := by
  induction args with
  | nil => rfl
  | cons arg rest ih =>
    obtain ⟨here, later⟩ := List.forall_mem_cons.mp h
    rw [treeArgs, Tree.codeArgs, here, ih later, argInstructions, List.map_append, code]

/-- An expression is laid out like its tree. -/
theorem code_tree (e : Expr) : e.tree.code = e.code := by
  induction e using Expr.induction with
  | literal | var => rfl
  | neg _ _ _ ih =>
    rw [tree, Tree.code, ih, code, code, instructions, List.map_append]
    rfl
  | run _ _ _ ih ihs =>
    rw [tree, code_treeSteps ihs, ih, code, code, instructions, List.map_append]
  | call _ func args ih =>
    rw [tree, Tree.code, code_treeArgs ih, code, instructions, List.map_append, treeArgs_eq_map,
      List.length_map]
    rfl

end Expr

/-! ## From trees to tokens -/

/-- The same instructions in another order, in which those that take nothing off the stack come
one after the other as before. -/
structure Rearranged (a b : List Instr) : Prop where
  perm : a.Perm b
  leaves : a.filter Instr.isLeaf = b.filter Instr.isLeaf

namespace Rearranged

variable {a a' b b' : List Instr} {instr : Instr}

theorem refl (a : List Instr) : Rearranged a a :=
  ⟨.refl a, rfl⟩

theorem append (h : Rearranged a b) (h' : Rearranged a' b') : Rearranged (a ++ a') (b ++ b') := by
  refine ⟨h.perm.append h'.perm, ?_⟩
  rw [List.filter_append, List.filter_append, h.leaves, h'.leaves]

/-- An instruction that takes values off the stack goes after what puts them there. -/
theorem last (h : Rearranged a b) (takes : instr.isLeaf = false) :
    Rearranged (instr :: a) (b ++ [instr]) := by
  refine ⟨(h.perm.cons instr).trans (List.perm_append_singleton instr b).symm, ?_⟩
  rw [List.filter_append, List.filter_cons, takes, h.leaves]
  simp [takes]

end Rearranged

/-- The tokens give, before whatever comes after them, the instructions of some code. -/
def Gives.Code (scope : Scope) (ts : List Token) (code : List Instr) : Prop :=
  ∀ (rest : List Token) (later : List Instr), Gives scope false rest later →
    ∃ given, Gives scope true (ts ++ rest) (given ++ later) ∧ Rearranged given code

/-- What is between commas gives its instructions one after the other. -/
theorem Separated.gives {scope : Scope} {α : Type} {args : List α} {tokens : α → List Token}
    {code : α → List Instr} {ts : List Token} (h : Separated (args.map tokens) ts)
    (gives : ∀ arg ∈ args, Gives.Code scope (tokens arg) (code arg)) :
    Gives.Code scope ts (args.flatMap code) := by
  generalize parts : args.map tokens = lists at h
  induction h generalizing args with
  | one =>
    obtain ⟨arg, rfl, rfl⟩ := List.map_eq_singleton_iff.mp parts
    rw [List.flatMap_singleton]
    exact gives arg (List.mem_singleton_self _)
  | more comma _ ih =>
    obtain ⟨arg, more, rfl, rfl, others⟩ := List.map_eq_cons_iff.mp parts
    obtain ⟨here, later⟩ := List.forall_mem_cons.mp gives
    intro rest code given
    obtain ⟨given, more, same⟩ := ih later others rest code given
    obtain ⟨given', first, same'⟩ := here _ _ (.comma comma more)
    refine ⟨given' ++ given, ?_, same'.append same⟩
    rw [List.append_assoc, List.append_assoc]
    exact first

/-- A function that is given a number of arguments it accepts takes that many values. -/
theorem Func.isLeaf_instr (func : Func) {count : Nat} (h : func.arity.accepts count = true) :
    (func.instr count).isLeaf = (count == 0) := by
  rw [Instr.isLeaf, Func.pops_instr h]

/-- The tokens of a formula give the instructions of its tree. -/
theorem Derives.gives {scope : Scope} {levels : Nat} {layer : Layer} {ts : List Token} {t : Tree}
    (h : Derives scope levels layer ts t) : Gives.Code scope ts t.code := by
  induction h with
  | ofProduct _ ih | ofSigned _ ih | ofPower _ ih | ofAtom _ ih => exact ih
  | sum _ kind _ _ ih₁ ih₂ | product _ kind _ _ ih₁ ih₂ | power _ kind _ ih₁ ih₂ =>
    intro rest later h
    obtain ⟨right, h, same⟩ := ih₂ rest later h
    obtain ⟨left, h, same'⟩ := ih₁ _ _ (.operator kind h)
    refine ⟨left ++ .op _ :: right, ?_, same'.append (same.last rfl)⟩
    rw [List.append_assoc, List.append_assoc]
    exact h
  | minus kind _ ih =>
    intro rest later h
    obtain ⟨given, h, same⟩ := ih rest later h
    exact ⟨.neg :: given, .minus kind h, same.last rfl⟩
  | plus kind _ ih =>
    intro rest later h
    obtain ⟨given, h, same⟩ := ih rest later h
    exact ⟨_, .plus kind h, same⟩
  | number kind => exact fun rest later h => ⟨[_], .number kind h, .refl _⟩
  | constant kind found => exact fun rest later h => ⟨[_], .constant kind found h, .refl _⟩
  | var kind found => exact fun rest later h => ⟨[_], .var kind found h, .refl _⟩
  | paren opening _ closing ih =>
    intro rest later h
    obtain ⟨given, h, same⟩ := ih (_ :: rest) later (.closing closing h)
    refine ⟨given, ?_, same⟩
    rw [List.cons_append, List.append_assoc]
    exact .opening opening h
  | callEmpty kind found opening closing =>
    intro rest later h
    have call := Gives.function kind found (.opening opening (.closing closing h))
    rw [argCount_empty closing] at call
    exact ⟨[_], call, .refl _⟩
  | @call _ token _ _ primitive args _ kind found opening derived separated closing accepted ih =>
    intro rest later h
    obtain ⟨given, h, same⟩ := separated.gives ih (_ :: rest) later (.closing closing h)
    have call := Gives.function kind found (.opening opening h)
    rw [separated.argCount derived closing] at call
    have some := List.length_pos_iff.mpr separated.ne_nil
    rw [List.length_map] at some
    have takes : (Func.instr ⟨token.text, primitive⟩ args.length).isLeaf = false := by
      rw [Func.isLeaf_instr ⟨_, _⟩ accepted, beq_eq_false_iff_ne]
      exact Nat.ne_of_gt some
    refine ⟨Func.instr ⟨token.text, primitive⟩ args.length :: given, ?_, ?_⟩
    · rw [List.cons_append, List.cons_append, List.append_assoc]
      exact call
    · rw [Tree.code, Tree.codeArgs_eq_flatMap, List.flatMap_map, List.length_map]
      exact same.last takes

/-- The tokens of a text give the instructions of its expression. -/
theorem gives_of_parse {scope : Scope} {maxLevels : Nat} {source : String} {e : Expr}
    (h : parse scope maxLevels source = ok e) :
    ∃ given, Gives scope true (tokens source) given ∧ Rearranged given e.code := by
  obtain ⟨levels, derived⟩ := derives_of_parse h
  obtain ⟨given, gives, same⟩ := derived.gives [] [] .nil
  rw [List.append_nil, List.append_nil] at gives
  rw [Expr.code_tree] at same
  exact ⟨given, gives, same⟩

/-- Without folding, every token other than a parenthesis, a comma or a plus sign gives one
instruction of the program, and every instruction is given by one token. The instructions that
take nothing off the stack come in the order of their tokens. -/
theorem code_corresponds {options : Options} {scope : Scope} {source : String} {p : Program}
    (h : compile options scope source = ok p) (unfolded : options.fold = false) :
    ∃ given, Gives scope true (tokens source) given ∧ given.Perm p.code ∧
      given.filter Instr.isLeaf = p.code.filter Instr.isLeaf := by
  obtain ⟨e, parsed, -, laid⟩ := compile_eq_ok h
  have prepared : options.prepare e = e := by simp [Options.prepare, unfolded]
  rw [prepared] at laid
  obtain ⟨given, gives, same⟩ := gives_of_parse parsed
  rw [(Program.ofExpr_eq_ok laid).1]
  exact ⟨given, gives, same.perm, same.leaves⟩

/-- A sign, a call of two arguments and a power with a sign that gives nothing. -/
theorem code_corresponds_signs :
    ∃ p, compile ⟨4096, 64, false⟩ (Scope.builtin.withCell "x" "a") "-max(x, 2 ^ +3) - pi" = ok p ∧
      p.size = 8 ∧
      ∃ given, Gives (Scope.builtin.withCell "x" "a") true (tokens "-max(x, 2 ^ +3) - pi") given ∧
        given.Perm p.code ∧ given.filter Instr.isLeaf = p.code.filter Instr.isLeaf := by
  have eight : ((compile ⟨4096, 64, false⟩ (Scope.builtin.withCell "x" "a")
      "-max(x, 2 ^ +3) - pi").map Program.size).toOption = some 8 := by decide +kernel
  obtain ⟨p, compiled, size⟩ := Program.exists_of_map eight
  exact ⟨p, compiled, size, code_corresponds compiled rfl⟩

end Formula
