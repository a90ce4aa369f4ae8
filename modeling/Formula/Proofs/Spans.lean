import Formula.Compilation
import Formula.Proofs.Ending
import Formula.Proofs.Replay

/-!
# The spans of an expression

A property of the spans of tokens that stretches from one span to another have too is a property
of every span in the expression that is read (`Reads.spans`), in what folding leaves of it
(`Expr.Spans.fold`), and of the span of every instruction (`Expr.Spans.instructions`). So where a
text has no program because it is nested too deeply, the span that is reported has it
(`Program.span_of_ofExpr`).
-/

namespace Formula

open Except (ok error)

namespace Expr

/-- Every span in an expression has a property. -/
inductive Spans (P : Span → Prop) : Expr → Prop where
  | literal {span : Span} (value : Float) : P span → Spans P (.literal span value)
  | var {span : Span} (name : String) (cell : Cell) : P span → Spans P (.var span name cell)
  | neg {span sign : Span} {operand : Expr} :
      P span → P sign → Spans P operand → Spans P (.neg span sign operand)
  | run {span : Span} {first : Expr} {steps : List (Step Expr)} :
      P span → Spans P first → (∀ step ∈ steps, P step.span) →
      (∀ step ∈ steps, Spans P step.operand) → Spans P (.run span first steps)
  | call {span : Span} {func : Func} {args : List Expr} :
      P span → (∀ arg ∈ args, Spans P arg) → Spans P (.call span func args)

namespace Spans

variable {P : Span → Prop} {e first operand : Expr} {steps : List (Step Expr)} {args : List Expr}

theorem span (h : e.Spans P) : P e.span := by
  cases h <;> assumption

theorem withSpan (h : e.Spans P) {span : Span} (hs : P span) : (e.withSpan span).Spans P := by
  cases h with
  | literal value => exact .literal value hs
  | var name cell => exact .var name cell hs
  | neg _ sign operand => exact .neg hs sign operand
  | run _ first steps operands => exact .run hs first steps operands
  | call _ args => exact .call hs args

section Through

variable (through : ∀ a b, P a → P b → P (a.through b))
include through

theorem chain (h : first.Spans P) (hs : ∀ step ∈ steps, P step.span)
    (ho : ∀ step ∈ steps, step.operand.Spans P) : (chain first steps).Spans P := by
  unfold Expr.chain
  cases last : steps.getLast? with
  | none => exact h
  | some step =>
    have whole := through _ _ h.span (ho step (List.mem_of_getLast? last)).span
    exact .run whole h hs ho

/-! ## Folding -/

theorem negate {sign : Span} (hs : P sign) (h : operand.Spans P) :
    (negate sign operand).Spans P := by
  have whole := through _ _ hs h.span
  unfold Expr.negate
  split
  · exact .literal _ whole
  · exact .neg whole hs h

theorem combine (h : first.Spans P) (hs : ∀ step ∈ steps, P step.span)
    (ho : ∀ step ∈ steps, step.operand.Spans P) : (combine first steps).Spans P := by
  induction steps generalizing first with
  | nil => exact h
  | cons step rest ih =>
    obtain ⟨-, later⟩ := List.forall_mem_cons.mp hs
    obtain ⟨here, operands⟩ := List.forall_mem_cons.mp ho
    rw [Expr.combine]
    split
    · exact ih (.literal _ (through _ _ h.span here.span)) later operands
    · exact h.chain through hs ho

omit through in
theorem apply {span : Span} {func : Func} (hs : P span) (h : ∀ arg ∈ args, arg.Spans P) :
    (apply span func args).Spans P := by
  unfold Expr.apply
  split
  · exact .literal _ hs
  · exact .call hs h

/-- A folded expression has no other spans than those from one span to another. -/
theorem fold (h : e.Spans P) : e.fold.Spans P := by
  induction h with
  | literal value hs => exact .literal value hs
  | var name cell hs => exact .var name cell hs
  | neg _ sign _ ih => exact ih.negate through sign
  | run _ _ steps _ ih ihs =>
    refine ih.combine through ?_ ?_ <;> rw [foldSteps_eq_map] <;> rw [List.forall_mem_map]
    · exact steps
    · exact ihs
  | call hs _ ih =>
    refine apply hs ?_
    rw [foldArgs_eq_map, List.forall_mem_map]
    exact ih

theorem prepare (h : e.Spans P) (options : Options) : (options.prepare e).Spans P := by
  unfold Options.prepare
  split
  · exact h.fold through
  · exact h

end Through

/-! ## Laying out -/

/-- Every instruction has the span of a part. -/
theorem instructions (h : e.Spans P) : ∀ placed ∈ e.instructions, P placed.span := by
  induction h with
  | literal _ hs | var _ _ hs => exact List.forall_mem_singleton.mpr hs
  | neg _ sign _ ih =>
    exact List.forall_mem_append.mpr ⟨ih, List.forall_mem_singleton.mpr sign⟩
  | run _ _ steps _ ih ihs =>
    refine List.forall_mem_append.mpr ⟨ih, ?_⟩
    rw [stepInstructions_eq_flatMap, List.forall_mem_flatMap]
    exact fun step hs =>
      List.forall_mem_append.mpr ⟨ihs step hs, List.forall_mem_singleton.mpr (steps step hs)⟩
  | call hs _ ih =>
    refine List.forall_mem_append.mpr ⟨?_, List.forall_mem_singleton.mpr hs⟩
    rw [argInstructions_eq_flatMap, List.forall_mem_flatMap]
    exact ih

end Spans

end Expr

namespace Program

/-- Too many values on the stack are an error at some instruction. -/
theorem span_of_peak {height most : Nat} {code : List Placed} {d : Diagnostic}
    (h : peak height most code = error d) :
    d.fault = .nestingTooDeep ∧ ∃ placed ∈ code, placed.span = d.span := by
  induction code generalizing height most with
  | nil => cases h
  | cons placed rest ih =>
    rw [peak] at h
    split at h
    · cases h
      exact ⟨rfl, placed, List.mem_cons_self, rfl⟩
    · obtain ⟨fault, later, mem, span⟩ := ih h
      exact ⟨fault, later, List.mem_cons_of_mem _ mem, span⟩

/-- If an expression has no program, it is nested too deeply at one of its parts. -/
theorem span_of_ofExpr {P : Span → Prop} {e : Expr} {d : Diagnostic} (spans : e.Spans P)
    (h : ofExpr e = error d) : d.fault = .nestingTooDeep ∧ P d.span := by
  unfold ofExpr at h
  split at h
  · rename_i peaked
    cases h
    obtain ⟨fault, placed, mem, span⟩ := span_of_peak peaked
    exact ⟨fault, span ▸ spans.instructions placed mem⟩
  · cases h

end Program

/-! ## Reading -/

/-- The spans of the tokens ahead have a property. -/
abbrev Cursor.Spans (P : Span → Prop) (c : Cursor) : Prop :=
  c.All fun token => token.isFinish = false → P token.span

/-- What is said of an answer: all spans in it have a property, that of a call if the span of its
name has it. -/
def Phrase.Spans (P : Span → Prop) : (phrase : Phrase) → Except Diagnostic phrase.Answer → Prop
  | _, error _ => True
  | expr _ _, ok e => e.Spans P
  | operand _, ok e => e.Spans P
  | steps _ _, ok run => (∀ step ∈ run, P step.span) ∧ ∀ step ∈ run, step.operand.Spans P
  | call _ _ name, ok e => P name → e.Spans P
  | args _ _ _, ok (list, close) => P close ∧ ∀ arg ∈ list, arg.Spans P

/-- Every span of what is read is that of a token or goes from one token to another. -/
theorem Reads.spans {P : Span → Prop} (through : ∀ a b, P a → P b → P (a.through b))
    {scope : Scope} {phrase : Phrase} {c last : Cursor}
    {answer : Except Diagnostic phrase.Answer} (h : Reads scope phrase c answer last)
    (tokens : c.Spans P) : phrase.Spans P answer := by
  induction h with
  | tooDeep | exprFails | unbound | parenFails | parenOpen | closed | noOperand | stepFails
  | callUnopened | callMissing | callSurplus | callFails | callTooFew | argFails | argSurplus
  | argOpen => trivial
  | @expr _ _ _ _ _ _ answer reads _ ih₁ ih₂ =>
    obtain ⟨k, taken, -⟩ := reads.ends
    cases answer with
    | error => trivial
    | ok steps =>
      obtain ⟨steps, operands⟩ := ih₂ (tokens.past taken)
      exact (ih₁ tokens).chain through steps operands
  | number kind | constant kind => exact .literal _ (tokens.first (Token.isFinish_of_kind kind))
  | var kind => exact .var _ _ (tokens.first (Token.isFinish_of_kind kind))
  | @function _ _ _ _ answer kind _ _ ih =>
    cases answer with
    | error => trivial
    | ok => exact ih tokens.next (tokens.first (Token.isFinish_of_kind kind))
  | paren kind reads close ih =>
    obtain ⟨k, taken, -⟩ := reads.ends
    have closing := (tokens.next.past taken).first (Token.isFinish_of_kind close)
    have opening := tokens.first (Token.isFinish_of_kind kind)
    exact (ih tokens.next).withSpan (through _ _ opening closing)
  | @minus _ _ _ answer kind _ ih =>
    cases answer with
    | error => trivial
    | ok e =>
      have sign := tokens.first (Token.isFinish_of_kind kind)
      have operand : e.Spans P := ih tokens.next
      exact Expr.Spans.neg (through _ _ sign operand.span) sign operand
  | @plus _ _ _ answer kind _ ih =>
    cases answer with
    | error => trivial
    | ok e =>
      have operand : e.Spans P := ih tokens.next
      exact operand.withSpan (through _ _ (tokens.first (Token.isFinish_of_kind kind)) operand.span)
  | stop => exact ⟨List.forall_mem_nil _, List.forall_mem_nil _⟩
  | @step _ _ _ _ _ _ _ answer kind _ reads _ ih₁ ih₂ =>
    obtain ⟨k, taken, -⟩ := reads.ends
    cases answer with
    | error => trivial
    | ok steps =>
      obtain ⟨steps, operands⟩ := ih₂ (tokens.next.past taken)
      exact ⟨List.forall_mem_cons.mpr ⟨tokens.first (Token.isFinish_of_kind kind), steps⟩,
        List.forall_mem_cons.mpr ⟨ih₁ tokens.next, operands⟩⟩
  | callEmpty _ closing _ =>
    exact fun name => .call (through _ _ name (tokens.next.first (Token.isFinish_of_kind closing)))
      (List.forall_mem_nil _)
  | call _ _ _ _ _ ih =>
    intro name
    obtain ⟨close, args⟩ := ih (tokens.past (.inr rfl : Cursor.Past _ 1 _))
    exact .call (through _ _ name close) args
  | @arg _ _ _ _ _ _ _ answer reads comma _ _ ih₁ ih₂ =>
    obtain ⟨k, taken, -⟩ := reads.ends
    cases answer with
    | error => trivial
    | ok =>
      obtain ⟨close, args⟩ := ih₂ (tokens.past taken).next
      exact ⟨close, List.forall_mem_cons.mpr ⟨ih₁ tokens, args⟩⟩
  | argLast reads close ih =>
    obtain ⟨k, taken, -⟩ := reads.ends
    exact ⟨(tokens.past taken).first (Token.isFinish_of_kind close),
      List.forall_mem_singleton.mpr (ih tokens)⟩

/-- Every span of the expression of a text is that of a token or goes from one to another. -/
theorem spans_of_parse {P : Span → Prop} (through : ∀ a b, P a → P b → P (a.through b))
    {scope : Scope} {maxLevels : Nat} {source : String} {e : Expr}
    (tokens : ∀ token ∈ tokens source, P token.span)
    (h : parse scope maxLevels source = ok e) : e.Spans P := by
  obtain ⟨-, last, reads, -⟩ := Parser.parse_eq_ok_iff.mp h
  have all : (Cursor.ofString source).Spans P :=
    Cursor.all_ofString (fun token ht _ => tokens token ht) fun token finish more => by
      rw [finish] at more
      cases more
  exact reads.spans through (all.past (.peek _))

end Formula
