import Formula.Compilation
import Formula.Proofs.Reads

/-!
# Accepted expressions

An expression is accepted if each of its calls has a number of arguments that its
function accepts (`Expr.Accepted`). What is read is accepted (`Reads.accepted`), and so is
what is left of it when its constants are folded (`Accepted.fold`): nothing else is ever
laid out for a text (`accepted_prepare`).
-/

namespace Formula

open Except (ok error)

namespace Expr

/-- Every call has a number of arguments that its function accepts. -/
inductive Accepted : Expr → Prop where
  | literal (span : Span) (value : Float) : Accepted (.literal span value)
  | var (span : Span) (name : String) (cell : Cell) : Accepted (.var span name cell)
  | neg {span sign : Span} {operand : Expr} : Accepted operand → Accepted (.neg span sign operand)
  | run {span : Span} {first : Expr} {steps : List (Step Expr)} :
      Accepted first → (∀ step ∈ steps, Accepted step.operand) →
      Accepted (.run span first steps)
  | call {span : Span} {func : Func} {args : List Expr} :
      func.arity.accepts args.length = true → (∀ arg ∈ args, Accepted arg) →
      Accepted (.call span func args)

namespace Accepted

variable {e first operand : Expr} {steps : List (Step Expr)} {args : List Expr}

theorem withSpan (h : e.Accepted) (span : Span) : (e.withSpan span).Accepted := by
  cases h with
  | literal => exact .literal _ _
  | var => exact .var _ _ _
  | neg h => exact .neg h
  | run h hs => exact .run h hs
  | call accepted hs => exact .call accepted hs

theorem chain (h : first.Accepted) (hs : ∀ step ∈ steps, step.operand.Accepted) :
    (chain first steps).Accepted := by
  cases steps with
  | nil => exact h
  | cons step rest =>
    obtain ⟨span, e⟩ := chain_cons first step rest
    rw [e]
    exact .run h hs

/-! ## Folding -/

theorem negate (h : operand.Accepted) (sign : Span) : (negate sign operand).Accepted := by
  unfold Expr.negate
  split
  · exact .literal _ _
  · exact .neg h

theorem combine (h : first.Accepted) (hs : ∀ step ∈ steps, step.operand.Accepted) :
    (combine first steps).Accepted := by
  induction steps generalizing first with
  | nil => exact h
  | cons step rest ih =>
    rw [Expr.combine]
    split
    · exact ih (.literal _ _) (List.forall_mem_cons.mp hs).2
    · exact h.chain hs

theorem apply {func : Func} (accepted : func.arity.accepts args.length = true)
    (h : ∀ arg ∈ args, arg.Accepted) (span : Span) : (apply span func args).Accepted := by
  unfold Expr.apply
  split
  · exact .literal _ _
  · exact .call accepted h

/-- Folding keeps the number of arguments of each call that is left. -/
theorem fold (h : e.Accepted) : e.fold.Accepted := by
  induction h with
  | literal span value => exact .literal span value
  | var span name cell => exact .var span name cell
  | neg _ ih => exact ih.negate _
  | run _ _ ih ihs =>
    refine ih.combine ?_
    rw [foldSteps_eq_map]
    exact List.forall_mem_map.mpr ihs
  | call accepted _ ih =>
    refine apply ?_ ?_ _
    · rw [foldArgs_eq_map, List.length_map]
      exact accepted
    · rw [foldArgs_eq_map]
      exact List.forall_mem_map.mpr ih

end Accepted

end Expr

/-! ## Reading -/

/-- What is said of an answer: all expressions in it are accepted. -/
def Phrase.Accepted : (phrase : Phrase) → Except Diagnostic phrase.Answer → Prop
  | _, error _ => True
  | expr _ _, ok e => e.Accepted
  | operand _, ok e => e.Accepted
  | steps _ _, ok run => ∀ step ∈ run, step.operand.Accepted
  | call _ _ _, ok e => e.Accepted
  | args _ _ _, ok (list, _) => ∀ arg ∈ list, arg.Accepted

/-- Whatever is read is accepted. -/
theorem Reads.accepted {scope : Scope} {phrase : Phrase} {c last : Cursor}
    {answer : Except Diagnostic phrase.Answer} (h : Reads scope phrase c answer last) :
    phrase.Accepted answer := by
  induction h with
  | tooDeep | exprFails | unbound | parenFails | parenOpen | closed | noOperand | stepFails
  | callUnopened | callMissing | callSurplus | callFails | callTooFew | argFails | argSurplus
  | argOpen => trivial
  | @expr _ _ _ _ _ _ answer _ _ ih₁ ih₂ =>
    cases answer with
    | error => trivial
    | ok => exact ih₁.chain ih₂
  | number | constant => exact Expr.Accepted.literal _ _
  | var => exact Expr.Accepted.var _ _ _
  | @function _ _ _ _ answer _ _ _ ih =>
    cases answer with
    | error => trivial
    | ok => exact ih
  | paren _ _ _ ih => exact ih.withSpan _
  | @minus _ _ _ answer _ _ ih =>
    cases answer with
    | error => trivial
    | ok => exact Expr.Accepted.neg ih
  | @plus _ _ _ answer _ _ ih =>
    cases answer with
    | error => trivial
    | ok => exact ih.withSpan _
  | stop => exact List.forall_mem_nil _
  | @step _ _ _ _ _ _ _ answer _ _ _ _ ih₁ ih₂ =>
    cases answer with
    | error => trivial
    | ok => exact List.forall_mem_cons.mpr ⟨ih₁, ih₂⟩
  | callEmpty _ _ accepted => exact Expr.Accepted.call accepted (List.forall_mem_nil _)
  | call _ _ _ _ accepted ih => exact Expr.Accepted.call accepted ih
  | @arg _ _ _ _ _ _ _ answer _ _ _ _ ih₁ ih₂ =>
    cases answer with
    | error => trivial
    | ok => exact List.forall_mem_cons.mpr ⟨ih₁, ih₂⟩
  | argLast _ _ ih => exact List.forall_mem_singleton.mpr ih

/-- The expression of a text is accepted. -/
theorem accepted_of_parse {scope : Scope} {maxLevels : Nat} {source : String} {e : Expr}
    (h : parse scope maxLevels source = ok e) : e.Accepted := by
  obtain ⟨-, _, reads, -⟩ := Parser.parse_eq_ok_iff.mp h
  exact reads.accepted

theorem Options.accepted_prepare (options : Options) {e : Expr} (h : e.Accepted) :
    (options.prepare e).Accepted := by
  unfold Options.prepare
  split
  · exact h.fold
  · exact h

/-- The program of a text is laid out for an accepted expression: the one that was read, or
what folding left of it. -/
theorem compile_eq_ok {options : Options} {scope : Scope} {source : String} {p : Program}
    (h : compile options scope source = ok p) :
    ∃ e, parse scope options.maxLevels source = ok e ∧ e.Accepted ∧
      Program.ofExpr (options.prepare e) = ok p := by
  unfold compile at h
  split at h
  · cases h
  split at h
  · cases h
  · rename_i e parsed
    exact ⟨e, parsed, accepted_of_parse parsed, h⟩

/-- A text has a program if it is not too long, can be read, and what is laid out for it has
one. -/
theorem compile_eq_ok_iff {options : Options} {scope : Scope} {source : String} {p : Program} :
    compile options scope source = ok p ↔ source.utf8ByteSize ≤ options.maxLength ∧
      ∃ e, parse scope options.maxLevels source = ok e ∧
        Program.ofExpr (options.prepare e) = ok p := by
  unfold compile
  by_cases long : options.maxLength < source.utf8ByteSize
  · simp [long, Nat.not_le.mpr long]
  · simp only [long, if_false, Nat.not_lt.mp long, true_and]
    cases parse scope options.maxLevels source <;> simp

end Formula
