import Formula.Expr.Basic
import Formula.Proofs.Ahead
import Formula.Scope.Builtin

/-!
# The grammar of formulas

Which sequences of tokens are formulas, and what they stand for, said in layers:

* a sum is products with `+` and `-` between them, grouped to the left;
* a product is signed operands with `*`, `/` and `%` between them, grouped to the left;
* a signed operand is one with a sign before it, or a power;
* a power is an atom, or an atom with `^` and a signed operand after it, which groups to
  the right;
* an atom is a number, a name, a sum in parentheses, or a call with sums for arguments.

A formula stands for a `Tree`, in which every operator has its two operands.
`Expr.tree` is the tree of an expression, whose runs are combined from left to right.
-/

namespace Formula

/-- What a formula stands for: an expression without runs and without spans. -/
inductive Tree where
  | literal (value : Float)
  | var (name : String) (cell : Cell)
  | neg (operand : Tree)
  | binary (op : Operator) (left right : Tree)
  | call (func : Func) (args : List Tree)

namespace Expr

mutual

/-- The tree of an expression. -/
def tree : Expr → Tree
  | literal _ value => .literal value
  | var _ name cell => .var name cell
  | neg _ _ operand => .neg operand.tree
  | run _ first steps => treeSteps first.tree steps
  | call _ func args => .call func (treeArgs args)
termination_by structural e => e

/-- The tree of a run, each step with all that is before it as its left operand. -/
def treeSteps (left : Tree) : List (Step Expr) → Tree
  | [] => left
  | ⟨op, _, operand⟩ :: rest => treeSteps (.binary op left operand.tree) rest
termination_by structural steps => steps

/-- The trees of arguments. -/
def treeArgs : List Expr → List Tree
  | [] => []
  | arg :: rest => arg.tree :: treeArgs rest
termination_by structural args => args

end

@[simp] theorem tree_withSpan (span : Span) (e : Expr) : (e.withSpan span).tree = e.tree := by
  cases e <;> simp [withSpan, tree]

theorem treeSteps_append (left : Tree) (a b : List (Step Expr)) :
    treeSteps left (a ++ b) = treeSteps (treeSteps left a) b := by
  induction a generalizing left with
  | nil => rfl
  | cons step rest ih => simp [treeSteps, ih]

theorem treeSteps_concat (left : Tree) (steps : List (Step Expr)) (last : Step Expr) :
    treeSteps left (steps ++ [last]) =
      .binary last.op (treeSteps left steps) last.operand.tree := by
  rw [treeSteps_append]
  rfl

theorem treeArgs_eq_map (args : List Expr) : treeArgs args = args.map tree := by
  induction args with
  | nil => rfl
  | cons arg rest ih => simp [treeArgs, ih]

theorem tree_chain (first : Expr) (steps : List (Step Expr)) :
    (chain first steps).tree = treeSteps first.tree steps := by
  cases steps with
  | nil => rfl
  | cons step rest =>
    obtain ⟨span, e⟩ := chain_cons first step rest
    rw [e, tree]

end Expr

/-- The symbols of the grammar. -/
inductive Layer where
  | sum
  | product
  | signed
  | power
  | atom

/-- Sequences of tokens, one after the other with commas between them. -/
inductive Separated : List (List Token) → List Token → Prop where
  | one {ts : List Token} : Separated [ts] ts
  | more {ts us : List Token} {rest : List (List Token)} {comma : Token} :
      comma.kind = .comma → Separated rest us → Separated (ts :: rest) (ts ++ comma :: us)

/-- What tokens a layer derives, and the tree they stand for, if no more than a number of
levels are open at a time in them. Parentheses, signs, operators on their right, and
calls for each argument open a level. -/
inductive Derives (scope : Scope) : Nat → Layer → List Token → Tree → Prop where
  | ofProduct {levels : Nat} {ts : List Token} {t : Tree} :
      Derives scope levels .product ts t → Derives scope levels .sum ts t
  | sum {levels : Nat} {us vs : List Token} {token : Token} {op : Operator}
      {left right : Tree} :
      Derives scope (levels + 1) .sum us left →
      token.kind = .operator op → op = .add ∨ op = .sub →
      Derives scope levels .product vs right →
      Derives scope (levels + 1) .sum (us ++ token :: vs) (.binary op left right)
  | ofSigned {levels : Nat} {ts : List Token} {t : Tree} :
      Derives scope levels .signed ts t → Derives scope levels .product ts t
  | product {levels : Nat} {us vs : List Token} {token : Token} {op : Operator}
      {left right : Tree} :
      Derives scope (levels + 1) .product us left →
      token.kind = .operator op → op = .mul ∨ op = .div ∨ op = .mod →
      Derives scope levels .signed vs right →
      Derives scope (levels + 1) .product (us ++ token :: vs) (.binary op left right)
  | minus {levels : Nat} {ts : List Token} {token : Token} {t : Tree} :
      token.kind = .operator .sub → Derives scope levels .signed ts t →
      Derives scope (levels + 1) .signed (token :: ts) (.neg t)
  | plus {levels : Nat} {ts : List Token} {token : Token} {t : Tree} :
      token.kind = .operator .add → Derives scope levels .signed ts t →
      Derives scope (levels + 1) .signed (token :: ts) t
  | ofPower {levels : Nat} {ts : List Token} {t : Tree} :
      Derives scope levels .power ts t → Derives scope levels .signed ts t
  | power {levels : Nat} {us vs : List Token} {token : Token} {left right : Tree} :
      Derives scope (levels + 1) .atom us left → token.kind = .operator .pow →
      Derives scope levels .signed vs right →
      Derives scope (levels + 1) .power (us ++ token :: vs) (.binary .pow left right)
  | ofAtom {levels : Nat} {ts : List Token} {t : Tree} :
      Derives scope levels .atom ts t → Derives scope levels .power ts t
  | number {levels : Nat} {token : Token} {value : Float} :
      token.kind = .number value → Derives scope levels .atom [token] (.literal value)
  | constant {levels : Nat} {token : Token} {value : Float} :
      token.kind = .name → scope.resolve token.text = some (.constant value) →
      Derives scope levels .atom [token] (.literal value)
  | var {levels : Nat} {token : Token} {cell : Cell} :
      token.kind = .name → scope.resolve token.text = some (.cell cell) →
      Derives scope levels .atom [token] (.var token.text cell)
  | paren {levels : Nat} {ts : List Token} {opening closing : Token} {t : Tree} :
      opening.kind = .openParen → Derives scope levels .sum ts t →
      closing.kind = .closeParen →
      Derives scope (levels + 1) .atom (opening :: (ts ++ [closing])) t
  | callEmpty {levels : Nat} {token opening closing : Token} {primitive : Primitive} :
      token.kind = .name → scope.resolve token.text = some (.function primitive) →
      opening.kind = .openParen → closing.kind = .closeParen →
      primitive.arity.accepts 0 = true →
      Derives scope levels .atom [token, opening, closing] (.call ⟨token.text, primitive⟩ [])
  | call {levels : Nat} {token opening closing : Token} {primitive : Primitive}
      {args : List (List Token × Tree)} {ts : List Token} :
      token.kind = .name → scope.resolve token.text = some (.function primitive) →
      opening.kind = .openParen → (∀ arg ∈ args, Derives scope levels .sum arg.1 arg.2) →
      Separated (args.map Prod.fst) ts → closing.kind = .closeParen →
      primitive.arity.accepts args.length = true →
      Derives scope (levels + 1) .atom (token :: opening :: (ts ++ [closing]))
        (.call ⟨token.text, primitive⟩ (args.map Prod.snd))

/-- The tokens are a formula with a tree. A formula opens a level itself. -/
def IsFormula (scope : Scope) (maxLevels : Nat) (ts : List Token) (t : Tree) : Prop :=
  ∃ levels, maxLevels = levels + 1 ∧ Derives scope levels .sum ts t

/-- A token that is one: it was read without a fault. -/
def Token.Valid (token : Token) : Prop :=
  ∀ fault, token.kind ≠ .invalid fault

theorem Token.valid_of_kind {token : Token} {kind : Token.Kind} (h : token.kind = kind)
    (hk : ∀ fault, kind ≠ .invalid fault) : token.Valid := by
  intro fault
  rw [h]
  exact hk fault

theorem Separated.ne_nil {parts : List (List Token)} {ts : List Token} (h : Separated parts ts) :
    parts ≠ [] := by
  cases h <;> simp

/-- A token of a separated sequence is in one of the sequences or between two. -/
theorem Separated.mem {parts : List (List Token)} {ts : List Token} (h : Separated parts ts)
    {token : Token} (ht : token ∈ ts) :
    (∃ part ∈ parts, token ∈ part) ∨ token.kind = .comma := by
  induction h with
  | one => exact .inl ⟨_, List.mem_singleton_self _, ht⟩
  | more comma _ ih =>
    rcases List.mem_append.mp ht with ht | ht
    · exact .inl ⟨_, List.mem_cons_self, ht⟩
    rcases List.mem_cons.mp ht with rfl | ht
    · exact .inr comma
    rcases ih ht with ⟨part, hp, ht⟩ | kind
    · exact .inl ⟨part, List.mem_cons_of_mem _ hp, ht⟩
    · exact .inr kind

namespace Derives

variable {scope : Scope} {levels : Nat} {layer : Layer} {ts : List Token} {t : Tree}

/-- Nothing is derived from no token. -/
theorem ne_nil (h : Derives scope levels layer ts t) : ts ≠ [] := by
  induction h <;> simp_all

/-- A formula holds valid tokens only. -/
theorem valid (h : Derives scope levels layer ts t) : ∀ token ∈ ts, token.Valid := by
  induction h with
  | ofProduct _ ih | ofSigned _ ih | ofPower _ ih | ofAtom _ ih => exact ih
  | sum _ kind _ _ ih₁ ih₂ | product _ kind _ _ ih₁ ih₂ | power _ kind _ ih₁ ih₂ =>
    exact List.forall_mem_append.mpr
      ⟨ih₁, List.forall_mem_cons.mpr ⟨Token.valid_of_kind kind (by simp), ih₂⟩⟩
  | minus kind _ ih | plus kind _ ih =>
    exact List.forall_mem_cons.mpr ⟨Token.valid_of_kind kind (by simp), ih⟩
  | number kind | constant kind | var kind =>
    exact List.forall_mem_singleton.mpr (Token.valid_of_kind kind (by simp))
  | paren opening _ closing ih =>
    refine List.forall_mem_cons.mpr ⟨Token.valid_of_kind opening (by simp), ?_⟩
    exact List.forall_mem_append.mpr
      ⟨ih, List.forall_mem_singleton.mpr (Token.valid_of_kind closing (by simp))⟩
  | callEmpty kind _ opening closing =>
    refine List.forall_mem_cons.mpr ⟨Token.valid_of_kind kind (by simp), ?_⟩
    refine List.forall_mem_cons.mpr ⟨Token.valid_of_kind opening (by simp), ?_⟩
    exact List.forall_mem_singleton.mpr (Token.valid_of_kind closing (by simp))
  | call kind _ opening _ separated closing _ ih =>
    refine List.forall_mem_cons.mpr ⟨Token.valid_of_kind kind (by simp), ?_⟩
    refine List.forall_mem_cons.mpr ⟨Token.valid_of_kind opening (by simp), ?_⟩
    refine List.forall_mem_append.mpr
      ⟨fun token ht => ?_, List.forall_mem_singleton.mpr (Token.valid_of_kind closing (by simp))⟩
    rcases separated.mem ht with ⟨_, hp, ht⟩ | comma
    · obtain ⟨arg, ha, rfl⟩ := List.mem_map.mp hp
      exact ih arg ha token ht
    · exact Token.valid_of_kind comma (by simp)

end Derives

end Formula
