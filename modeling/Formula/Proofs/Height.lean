import Formula.Proofs.Pinpoint

/-!
# How tall expressions are

All operators of a level are in one node, so a level has at most two nodes on a path down an
expression: its run, and the negation or the call at the start of the run. An expression that was
read has less than twice as many nodes on a path as levels may be open (`Reads.low`), however long
its text is, and folding makes no expression taller (`Expr.height_fold_le`).

No lower bound would do. A number is as tall as one level allows for, and a sum that starts with a
function of such a sum has two nodes more on one level more (`tower`).
-/

namespace Formula

open Except (ok error)

namespace Expr

mutual

/-- How many nodes there are on the longest path from an expression down through its parts. -/
def height : Expr → Nat
  | literal _ _ => 1
  | var _ _ _ => 1
  | neg _ _ operand => operand.height + 1
  | run _ first steps => max first.height (heightSteps steps) + 1
  | call _ _ args => heightArgs args + 1
termination_by structural e => e

/-- The same for the tallest of the operands of some steps. -/
def heightSteps : List (Step Expr) → Nat
  | [] => 0
  | ⟨_, _, operand⟩ :: rest => max operand.height (heightSteps rest)
termination_by structural steps => steps

/-- The same for the tallest of some arguments. -/
def heightArgs : List Expr → Nat
  | [] => 0
  | arg :: rest => max arg.height (heightArgs rest)
termination_by structural args => args

end

theorem height_pos (e : Expr) : 0 < e.height := by
  cases e <;> simp [height]

@[simp] theorem height_withSpan (span : Span) (e : Expr) :
    (e.withSpan span).height = e.height := by
  cases e <;> simp [withSpan, height]

section

variable {first : Expr} {steps : List (Step Expr)} {args : List Expr} {span : Span} {n : Nat}

theorem heightSteps_le_iff :
    heightSteps steps ≤ n ↔ ∀ step ∈ steps, step.operand.height ≤ n := by
  induction steps with
  | nil => simp [heightSteps]
  | cons step rest ih => rw [heightSteps, Nat.max_le, ih, List.forall_mem_cons]

theorem height_run_le_iff :
    (run span first steps).height ≤ n + 1 ↔
      first.height ≤ n ∧ ∀ step ∈ steps, step.operand.height ≤ n := by
  rw [height, Nat.add_le_add_iff_right, Nat.max_le, heightSteps_le_iff]

theorem heightArgs_le_iff : heightArgs args ≤ n ↔ ∀ arg ∈ args, arg.height ≤ n := by
  induction args with
  | nil => simp [heightArgs]
  | cons arg rest ih => rw [heightArgs, Nat.max_le, ih, List.forall_mem_cons]

theorem height_call_le_iff {func : Func} :
    (call span func args).height ≤ n + 1 ↔ ∀ arg ∈ args, arg.height ≤ n := by
  rw [height, Nat.add_le_add_iff_right, heightArgs_le_iff]

/-- A run is one node more than its operands, and one operand alone is no run. -/
theorem height_chain_le (h : first.height ≤ n) (hs : ∀ step ∈ steps, step.operand.height ≤ n) :
    (chain first steps).height ≤ n + 1 := by
  cases steps with
  | nil => exact Nat.le_succ_of_le h
  | cons step rest =>
    obtain ⟨span, e⟩ := chain_cons first step rest
    rw [e]
    exact height_run_le_iff.mpr ⟨h, hs⟩

/-! ## Folding -/

theorem height_negate_le (sign : Span) (operand : Expr) :
    (negate sign operand).height ≤ operand.height + 1 := by
  unfold negate
  split
  · exact Nat.le_add_left 1 _
  · exact Nat.le_refl _

/-- A number that replaces the start of a run is no taller than any operand. -/
theorem height_combine_le (h : first.height ≤ n)
    (hs : ∀ step ∈ steps, step.operand.height ≤ n) : (combine first steps).height ≤ n + 1 := by
  induction steps generalizing first with
  | nil => exact Nat.le_succ_of_le h
  | cons step rest ih =>
    rw [combine]
    split
    · have one : 1 ≤ n := Nat.le_trans first.height_pos h
      exact ih one (List.forall_mem_cons.mp hs).2
    · exact height_chain_le h hs

theorem height_apply_le (span : Span) (func : Func) (h : ∀ arg ∈ args, arg.height ≤ n) :
    (apply span func args).height ≤ n + 1 := by
  unfold apply
  split
  · exact Nat.le_add_left 1 n
  · exact height_call_le_iff.mpr h

/-- Folding makes no expression taller. -/
theorem height_fold_le (e : Expr) : e.fold.height ≤ e.height := by
  induction e using Expr.induction with
  | literal | var => exact Nat.le_refl _
  | neg _ sign operand ih =>
    exact Nat.le_trans (height_negate_le sign operand.fold) (Nat.succ_le_succ ih)
  | run span first steps ih ihs =>
    obtain ⟨here, later⟩ := height_run_le_iff.mp (Nat.le_refl (run span first steps).height)
    refine height_combine_le (Nat.le_trans ih here) ?_
    rw [foldSteps_eq_map]
    exact List.forall_mem_map.mpr fun step hs => Nat.le_trans (ihs step hs) (later step hs)
  | call span func args ih =>
    have lower := height_call_le_iff.mp (Nat.le_refl (call span func args).height)
    refine height_apply_le span func ?_
    rw [foldArgs_eq_map]
    exact List.forall_mem_map.mpr fun arg ha => Nat.le_trans (ih arg ha) (lower arg ha)

end

end Expr

/-! ## Reading -/

/-- What is said of an answer: it has at most two nodes for each level. The node of a run comes on
the level that its sub-expression opens, so an operand may have one node even without a level. -/
def Phrase.Low : (phrase : Phrase) → Except Diagnostic phrase.Answer → Prop
  | _, error _ => True
  | expr levels _, ok e => e.height < 2 * levels
  | operand levels, ok e => e.height ≤ max 1 (2 * levels)
  | steps levels _, ok run => ∀ step ∈ run, step.operand.height < 2 * levels
  | call levels _ _, ok e => e.height ≤ max 1 (2 * levels)
  | args levels _ _, ok (list, _) => ∀ arg ∈ list, arg.height < 2 * levels

/-- Operators are only there if a level is left for what is on the right of them. -/
theorem Expr.height_chain_lt {first : Expr} {steps : List (Step Expr)} {levels : Nat}
    (h : first.height ≤ max 1 (2 * levels))
    (hs : ∀ step ∈ steps, step.operand.height < 2 * levels) :
    (chain first steps).height < 2 * (levels + 1) := by
  cases steps with
  | nil =>
    rw [chain_nil]
    omega
  | cons step rest =>
    have some : step.operand.height < 2 * levels := hs step List.mem_cons_self
    have tall : (chain first (step :: rest)).height ≤ 2 * levels + 1 :=
      height_chain_le (by omega) fun step hs' => Nat.le_of_lt (hs step hs')
    omega

/-- What is read has at most two nodes for each level. -/
theorem Reads.low {scope : Scope} {phrase : Phrase} {c last : Cursor}
    {answer : Except Diagnostic phrase.Answer} (h : Reads scope phrase c answer last) :
    phrase.Low answer := by
  induction h with
  | tooDeep | exprFails | unbound | parenFails | parenOpen | closed | noOperand | stepFails
  | callUnopened | callMissing | callSurplus | callFails | callTooFew | argFails | argSurplus
  | argOpen => trivial
  | @expr levels _ _ _ _ first answer _ _ ih₁ ih₂ =>
    cases answer with
    | error => trivial
    | ok => exact Expr.height_chain_lt ih₁ ih₂
  | number | constant | var => exact Nat.le_max_left 1 _
  | @function _ _ _ _ answer _ _ _ ih =>
    cases answer with
    | error => trivial
    | ok => exact ih
  | paren _ _ _ ih =>
    rw [Phrase.Low, Expr.height_withSpan]
    exact Nat.le_trans (Nat.le_of_lt ih) (Nat.le_max_right 1 _)
  | @minus _ _ _ answer _ _ ih =>
    cases answer with
    | error => trivial
    | ok => exact Nat.le_trans ih (Nat.le_max_right 1 _)
  | @plus _ _ _ answer _ _ ih =>
    cases answer with
    | error => trivial
    | ok =>
      simp only [Except.map, Phrase.Low, Expr.height_withSpan]
      exact Nat.le_trans (Nat.le_of_lt ih) (Nat.le_max_right 1 _)
  | stop => exact List.forall_mem_nil _
  | @step _ _ _ _ _ _ _ answer _ _ _ _ ih₁ ih₂ =>
    cases answer with
    | error => trivial
    | ok => exact List.forall_mem_cons.mpr ⟨ih₁, ih₂⟩
  | callEmpty => exact Nat.le_max_left 1 _
  | @call levels _ _ _ _ _ args _ _ _ _ _ ih =>
    have lower : Expr.heightArgs args ≤ 2 * levels - 1 :=
      Expr.heightArgs_le_iff.mpr fun arg ha => Nat.le_sub_one_of_lt (ih arg ha)
    rw [Phrase.Low, Expr.height]
    omega
  | @arg _ _ _ _ _ _ _ answer _ _ _ _ ih₁ ih₂ =>
    cases answer with
    | error => trivial
    | ok => exact List.forall_mem_cons.mpr ⟨ih₁, ih₂⟩
  | argLast _ _ ih => exact List.forall_mem_singleton.mpr ih

/-- The expression of a text has less than two nodes for each level. -/
theorem height_lt_of_parse {scope : Scope} {maxLevels : Nat} {source : String} {e : Expr}
    (h : parse scope maxLevels source = ok e) : e.height < 2 * maxLevels := by
  obtain ⟨-, _, reads, -⟩ := Parser.parse_eq_ok_iff.mp h
  exact reads.low

/-! ## Towers -/

/-- A plus sign. -/
def Token.plus : Token :=
  ⟨.operator .add, .point 0, "+"⟩

theorem Token.spelled_plus : plus.Spelled :=
  spelled_single (c := '+') (by decide) rfl rfl _

/-- A sum that starts with a function of a lower sum of the kind, to some height. -/
def tower (name : Token) : Nat → List Token
  | 0 => [.zero]
  | n + 1 => name :: .opening :: (tower name n ++ [.closing]) ++ .plus :: [.zero]

/-- The tree of such a sum. -/
inductive Tree.Tower : Nat → Tree → Prop where
  | base {t : Tree} : Tower 0 t
  | sum {n : Nat} {t right : Tree} {op : Operator} {func : Func} :
      Tower n t → Tower (n + 1) (.binary op (.call func [t]) right)

section Tower

variable {scope : Scope} {name : Token} {primitive : Primitive}

theorem spelled_tower (h : name.Spelled) (n : Nat) : ∀ token ∈ tower name n, token.Spelled := by
  induction n with
  | zero => exact List.forall_mem_singleton.mpr Token.spelled_zero
  | succ n ih =>
    refine List.forall_mem_append.mpr ⟨List.forall_mem_cons.mpr ⟨h, List.forall_mem_cons.mpr
      ⟨Token.spelled_opening, List.forall_mem_append.mpr
        ⟨ih, List.forall_mem_singleton.mpr Token.spelled_closing⟩⟩⟩, ?_⟩
    exact List.forall_mem_cons.mpr
      ⟨Token.spelled_plus, List.forall_mem_singleton.mpr Token.spelled_zero⟩

theorem derives_tower (kind : name.kind = .name)
    (found : scope.resolve name.text = some (.function primitive))
    (accepted : primitive.arity.accepts 1 = true) (n : Nat) :
    ∃ t, Derives scope n .sum (tower name n) t ∧ t.Tower n := by
  obtain ⟨value, zero⟩ : ∃ value, Token.zero.kind = .number value := ⟨_, rfl⟩
  have right : ∀ levels, Derives scope levels .product [.zero] (.literal value) := fun _ =>
    .ofSigned (.ofPower (.ofAtom (.number zero)))
  induction n with
  | zero => exact ⟨_, .ofProduct (right 0), .base⟩
  | succ n ih =>
    obtain ⟨t, derived, ht⟩ := ih
    have call : Derives scope (n + 1) .atom (name :: .opening :: (tower name n ++ [.closing]))
        (.call ⟨name.text, primitive⟩ [t]) := by
      have args : ∀ arg ∈ [(tower name n, t)], Derives scope n .sum arg.1 arg.2 :=
        List.forall_mem_singleton.mpr derived
      exact .call kind found rfl args .one rfl accepted
    exact ⟨_, .sum (.ofProduct (.ofSigned (.ofPower (.ofAtom call)))) rfl (.inl rfl) (right n),
      .sum ht⟩

end Tower

namespace Expr

/-- Only a run without operators has the tree of a call. -/
theorem eq_nil_of_treeSteps {left : Tree} {steps : List (Step Expr)} {func : Func} {ts : List Tree}
    (h : treeSteps left steps = .call func ts) : steps = [] := by
  rcases List.eq_nil_or_concat steps with rfl | ⟨front, last, rfl⟩
  · rfl
  · rw [List.concat_eq_append, treeSteps_concat] at h
    cases h

theorem height_lt_run (span : Span) (first : Expr) (steps : List (Step Expr)) :
    first.height < (run span first steps).height :=
  Nat.lt_succ_of_le (Nat.le_max_left _ _)

/-- What has the tree of a call has the arguments of the call in it. -/
theorem exists_arg_of_tree {e : Expr} {func : Func} {t : Tree} (h : e.tree = .call func [t]) :
    ∃ arg : Expr, arg.tree = t ∧ arg.height < e.height := by
  induction e using Expr.induction with
  | literal | var | neg => cases h
  | run span first steps ih =>
    rw [tree] at h
    obtain rfl := eq_nil_of_treeSteps h
    obtain ⟨arg, same, lt⟩ := ih h
    exact ⟨arg, same, Nat.lt_trans lt (height_lt_run span first [])⟩
  | call span func args =>
    rw [tree, treeArgs_eq_map] at h
    obtain ⟨arg, rfl, rfl⟩ := List.map_eq_singleton_iff.mp (Tree.call.inj h).2
    exact ⟨arg, rfl, Nat.lt_succ_of_le (Nat.le_max_left _ _)⟩

/-- What has the tree of an operator with a call on its left has the call in it. -/
theorem exists_first_of_tree {e : Expr} {op : Operator} {func : Func} {ts : List Tree}
    {right : Tree} (h : e.tree = .binary op (.call func ts) right) :
    ∃ first : Expr, first.tree = .call func ts ∧ first.height < e.height := by
  induction e using Expr.induction with
  | literal | var | neg | call => cases h
  | run span first steps ih =>
    rw [tree] at h
    rcases List.eq_nil_or_concat steps with rfl | ⟨front, last, rfl⟩
    · obtain ⟨inner, call, lt⟩ := ih h
      exact ⟨inner, call, Nat.lt_trans lt (height_lt_run span first [])⟩
    · rw [List.concat_eq_append, treeSteps_concat] at h
      have call := (Tree.binary.inj h).2.1
      obtain rfl := eq_nil_of_treeSteps call
      exact ⟨first, call, height_lt_run span first _⟩

/-- Whatever expression a tower is read as, it is as tall as two nodes for each of its levels. -/
theorem le_height_of_tower {n : Nat} {e : Expr} (h : e.tree.Tower n) : 2 * n + 1 ≤ e.height := by
  generalize ht : e.tree = t at h
  induction h generalizing e with
  | base => exact e.height_pos
  | sum _ ih =>
    obtain ⟨first, call, lt⟩ := exists_first_of_tree ht
    obtain ⟨arg, inner, lt'⟩ := exists_arg_of_tree call
    have := ih inner
    omega

end Expr

/-- On any path an expression has at most one node less than two for each level, and so has what
folding leaves of it. For each number of levels some text has an expression of that height. -/
theorem height_bounded :
    (∀ (scope : Scope) (maxLevels : Nat) (source : String) (e : Expr),
      parse scope maxLevels source = ok e →
      e.height ≤ 2 * maxLevels - 1 ∧ e.fold.height ≤ 2 * maxLevels - 1) ∧
    ∀ maxLevels ≥ 1, ∃ source e,
      parse .empty maxLevels source = ok e ∧ e.height = 2 * maxLevels - 1 := by
  constructor
  · intro scope maxLevels source e h
    have low : e.height ≤ 2 * maxLevels - 1 := Nat.le_sub_one_of_lt (height_lt_of_parse h)
    exact ⟨low, Nat.le_trans e.height_fold_le low⟩
  · intro maxLevels pos
    obtain ⟨n, rfl⟩ := Nat.exists_eq_add_of_le' pos
    let sine : Token := ⟨.name, .point 0, "sin"⟩
    have spelled : sine.Spelled := ⟨'s', ['i', 'n'], by decide, rfl, rfl⟩
    have found : Scope.empty.resolve sine.text = some (.function (.unary Float.sin)) := rfl
    obtain ⟨t, derived, tower⟩ := derives_tower rfl found rfl n
    obtain ⟨source, same⟩ := exists_tokens (spelled_tower spelled n)
    obtain ⟨e, parsed, rfl⟩ := (derived.congr same).parse_eq
    have tall := Expr.le_height_of_tower tower
    have low := height_lt_of_parse parsed
    exact ⟨source, e, parsed, by omega⟩

/-- On two levels there are the run, the call in it, and its argument, and folding leaves them. -/
theorem height_bounded_call :
    (∃ e, parse (Scope.empty.withCell "x" "a") 2 "sin(x) + 1" = ok e ∧
      e.height = 3 ∧ e.fold.height ≤ 3) ∧
    ∃ source e, parse .empty 2 source = ok e ∧ e.height = 3 := by
  obtain ⟨bounded, attained⟩ := height_bounded
  refine ⟨?_, attained 2 (by decide)⟩
  have tall : (parse (Scope.empty.withCell "x" "a") 2 "sin(x) + 1").toOption.map Expr.height =
      some 3 := by decide +kernel
  cases parsed : parse (Scope.empty.withCell "x" "a") 2 "sin(x) + 1" with
  | error =>
    rw [parsed] at tall
    cases tall
  | ok e =>
    rw [parsed] at tall
    exact ⟨e, rfl, Option.some.inj tall, (bounded _ _ _ _ parsed).2⟩

end Formula
