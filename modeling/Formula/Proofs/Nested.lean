import Formula.Proofs.Spans

/-!
# Parts inside their whole

The parts of an expression stand inside it, one after the other (`Expr.Nested`): the operands of
a run and the operators between them, the sign of a negation and its operand, and the arguments
of a call. None of them is empty. This is so of every expression that is read (`Reads.nested`),
since tokens are handed out in the order in which they stand (`Cursor.Rises`), and of what
folding leaves of one (`Expr.Fits.fold`), which stands inside the expression it was.
-/

namespace Formula

open Except (ok error)

/-- Spans stand one after the other between two bytes, and none of them is empty. -/
def Span.Row : Nat → List Span → Nat → Prop
  | lo, [], hi => lo ≤ hi
  | lo, a :: rest, hi => lo ≤ a.start ∧ a.start < a.stop ∧ Row a.stop rest hi

namespace Span.Row

variable {lo mid hi : Nat} {a b : Span} {front back : List Span}

theorem le (h : Row lo front hi) : lo ≤ hi := by
  induction front generalizing lo with
  | nil => exact h
  | cons a rest ih =>
    obtain ⟨start, size, later⟩ := h
    exact Nat.le_trans start (Nat.le_trans (Nat.le_of_lt size) (ih later))

theorem lt (h : Row lo (a :: back) hi) : lo < hi :=
  Nat.lt_of_le_of_lt h.1 (Nat.lt_of_lt_of_le h.2.1 h.2.2.le)

/-- What stands between two bytes stands between any two around them. -/
theorem mono {lo' hi' : Nat} (h : Row lo front hi) (start : lo' ≤ lo) (stop : hi ≤ hi') :
    Row lo' front hi' := by
  induction front generalizing lo lo' with
  | nil => exact Nat.le_trans start (Nat.le_trans h stop)
  | cons a rest ih =>
    exact ⟨Nat.le_trans start h.1, h.2.1, ih h.2.2 (Nat.le_refl _)⟩

theorem append_iff : Row lo (front ++ back) hi ↔ ∃ mid, Row lo front mid ∧ Row mid back hi := by
  induction front generalizing lo with
  | nil =>
    exact ⟨fun h => ⟨lo, Nat.le_refl lo, h⟩, fun ⟨_, le, h⟩ => h.mono le (Nat.le_refl _)⟩
  | cons a rest ih =>
    rw [List.cons_append, Row, ih]
    exact ⟨fun ⟨start, size, mid, h, h'⟩ => ⟨mid, ⟨start, size, h⟩, h'⟩,
      fun ⟨mid, ⟨start, size, h⟩, h'⟩ => ⟨start, size, mid, h, h'⟩⟩

/-- The last span of a row ends it. -/
theorem upto (h : Row lo (front ++ [b]) hi) :
    Row lo (front ++ [b]) b.stop ∧ b.stop ≤ hi := by
  obtain ⟨mid, first, start, size, le⟩ := append_iff.mp h
  exact ⟨append_iff.mpr ⟨mid, first, start, size, Nat.le_refl _⟩, le⟩

/-- The spans of a row are between its ends, and none is empty. -/
theorem inside (h : Row lo front hi) :
    ∀ a ∈ front, lo ≤ a.start ∧ a.start < a.stop ∧ a.stop ≤ hi := by
  induction front generalizing lo with
  | nil => exact List.forall_mem_nil _
  | cons a rest ih =>
    obtain ⟨start, size, later⟩ := h
    refine List.forall_mem_cons.mpr ⟨⟨start, size, later.le⟩, fun b hb => ?_⟩
    obtain ⟨after, size', stop⟩ := ih later b hb
    exact ⟨Nat.le_trans start (Nat.le_trans (Nat.le_of_lt size) after), size', stop⟩

/-- Each span of a row comes before those after it. -/
theorem apart (h : Row lo front hi) : front.Pairwise fun a b => a.stop ≤ b.start := by
  induction front generalizing lo with
  | nil => exact .nil
  | cons a rest ih =>
    obtain ⟨-, -, later⟩ := h
    exact List.pairwise_cons.mpr ⟨fun b hb => (later.inside b hb).1, ih later⟩

/-- Where parts take the place of others that stood between the same bytes, the whole is a row
again. -/
theorem flatMap {α β : Type} {f : α → List Span} {g : β → List Span} {parts : List α}
    {place : α → β} (h : Row lo (parts.flatMap f) hi)
    (part : ∀ x ∈ parts, ∀ lo hi, Row lo (f x) hi → Row lo (g (place x)) hi) :
    Row lo ((parts.map place).flatMap g) hi := by
  induction parts generalizing lo with
  | nil => exact h
  | cons x rest ih =>
    obtain ⟨here, later⟩ := List.forall_mem_cons.mp part
    rw [List.flatMap_cons] at h
    obtain ⟨mid, first, h⟩ := append_iff.mp h
    rw [List.map_cons, List.flatMap_cons]
    exact append_iff.mpr ⟨mid, here _ _ first, ih h later⟩

end Span.Row

open Formula.Span (Row)

/-- The spans of an operator and of its right operand. -/
def Step.spans (step : Step Expr) : List Span :=
  [step.span, step.operand.span]

namespace Expr

/-- The parts of an expression stand inside it, one after the other, and so do theirs. -/
inductive Nested : Expr → Prop where
  | literal {span : Span} (value : Float) : span.start < span.stop → Nested (.literal span value)
  | var {span : Span} (name : String) (cell : Cell) :
      span.start < span.stop → Nested (.var span name cell)
  | neg {span sign : Span} {operand : Expr} :
      Row span.start [sign, operand.span] span.stop → Nested operand →
      Nested (.neg span sign operand)
  | run {span : Span} {first : Expr} {steps : List (Step Expr)} :
      Row span.start (first.span :: steps.flatMap Step.spans) span.stop →
      Nested first → (∀ step ∈ steps, Nested step.operand) → Nested (.run span first steps)
  | call {span : Span} {func : Func} {args : List Expr} :
      span.start < span.stop → Row span.start (args.map Expr.span) span.stop →
      (∀ arg ∈ args, Nested arg) → Nested (.call span func args)

/-- An expression whose parts stand inside it stands between two bytes. -/
structure Fits (lo : Nat) (e : Expr) (hi : Nat) : Prop where
  nested : e.Nested
  start : lo ≤ e.span.start
  stop : e.span.stop ≤ hi

variable {lo hi : Nat} {e first operand : Expr} {steps : List (Step Expr)} {args : List Expr}

namespace Nested

theorem lt (h : e.Nested) : e.span.start < e.span.stop := by
  cases h with
  | literal _ size | var _ _ size | call size => exact size
  | neg row | run row => exact row.lt

theorem row (h : e.Nested) : Row e.span.start [e.span] e.span.stop :=
  ⟨Nat.le_refl _, h.lt, Nat.le_refl _⟩

/-- More text around an expression is made part of it. -/
theorem withSpan {span : Span} (h : e.Nested) (start : span.start ≤ e.span.start)
    (stop : e.span.stop ≤ span.stop) : (e.withSpan span).Nested := by
  have size : span.start < span.stop := Nat.lt_of_le_of_lt start (Nat.lt_of_lt_of_le h.lt stop)
  cases h with
  | literal value _ => exact .literal value size
  | var name cell _ => exact .var name cell size
  | neg row operand => exact .neg (row.mono start stop) operand
  | run row first operands => exact .run (row.mono start stop) first operands
  | call _ row args => exact .call size (row.mono start stop) args

/-- No span of an expression is empty. -/
theorem spans (h : e.Nested) : e.Spans fun span => span.start < span.stop := by
  induction h with
  | literal value size => exact .literal value size
  | var name cell size => exact .var name cell size
  | neg row _ ih => exact .neg row.lt row.2.1 ih
  | run row _ _ ih ihs =>
    refine .run row.lt ih (fun step hs => ?_) ihs
    have operator : step.span ∈ step.spans := List.mem_cons_self
    have inside := List.mem_flatMap.mpr ⟨step, hs, operator⟩
    exact (row.inside _ (List.mem_cons_of_mem _ inside)).2.1
  | call size _ _ ih => exact .call size ih

end Nested

namespace Fits

theorem row (h : Fits lo e hi) : Row lo [e.span] hi :=
  h.nested.row.mono h.start h.stop

theorem of_row (h : e.Nested) (row : Row lo [e.span] hi) : Fits lo e hi :=
  ⟨h, row.1, row.2.2⟩

theorem literal {span : Span} (value : Float) (h : Row lo [span] hi) :
    Fits lo (.literal span value) hi :=
  ⟨.literal value h.2.1, h.1, h.2.2⟩

theorem chain (row : Row lo (first.span :: steps.flatMap Step.spans) hi) (h : first.Nested)
    (hs : ∀ step ∈ steps, step.operand.Nested) : Fits lo (chain first steps) hi := by
  rcases List.eq_nil_or_concat steps with rfl | ⟨front, last, rfl⟩
  · exact .of_row h row
  · rw [List.concat_eq_append] at row hs ⊢
    have found : chain first (front ++ [last]) =
        .run (first.span.through last.operand.span) first (front ++ [last]) := by
      simp [Expr.chain]
    have split : first.span :: (front ++ [last]).flatMap Step.spans =
        (first.span :: front.flatMap Step.spans ++ [last.span]) ++ [last.operand.span] := by
      simp [Step.spans]
    rw [found]
    have start := row.1
    rw [split] at row
    obtain ⟨row, stop⟩ := row.upto
    rw [← split] at row
    exact ⟨.run ⟨Nat.le_refl _, row.2⟩ h hs, start, stop⟩

theorem neg {sign : Span} (row : Row lo [sign, operand.span] hi) (h : operand.Nested) :
    Fits lo (.neg (sign.through operand.span) sign operand) hi := by
  obtain ⟨start, size, after, size', stop⟩ := row
  exact ⟨.neg ⟨Nat.le_refl _, size, after, size', Nat.le_refl _⟩ h, start, stop⟩

theorem plus {sign : Span} (row : Row lo [sign, operand.span] hi) (h : operand.Nested) :
    Fits lo (operand.withSpan (sign.through operand.span)) hi := by
  obtain ⟨start, size, after, size', stop⟩ := row
  have before : sign.start ≤ operand.span.start := Nat.le_trans (Nat.le_of_lt size) after
  refine ⟨h.withSpan before (Nat.le_refl _), ?_, ?_⟩ <;> rw [span_withSpan]
  · exact start
  · exact stop

theorem paren {opening closing : Span} (row : Row lo [opening, e.span, closing] hi)
    (h : e.Nested) : Fits lo (e.withSpan (opening.through closing)) hi := by
  obtain ⟨start, size, after, -, before, size', stop⟩ := row
  refine ⟨h.withSpan ?_ ?_, ?_, ?_⟩
  · exact Nat.le_trans (Nat.le_of_lt size) after
  · exact Nat.le_trans before (Nat.le_of_lt size')
  · rw [span_withSpan]
    exact start
  · rw [span_withSpan]
    exact stop

/-- A call goes from its name to its closing parenthesis. -/
theorem call {func : Func} {name close : Span}
    (row : Row lo ([name] ++ (args.map Expr.span ++ [close])) hi) (h : ∀ arg ∈ args, arg.Nested) :
    Fits lo (.call (name.through close) func args) hi := by
  obtain ⟨start, size, row⟩ := row
  obtain ⟨row, stop⟩ := Row.upto row
  obtain ⟨_, inside, le, size', -⟩ := Row.append_iff.mp row
  have whole : name.start < close.stop := Nat.lt_of_lt_of_le size row.le
  have args : Row name.start (args.map Expr.span) close.stop :=
    inside.mono (Nat.le_of_lt size) (Nat.le_trans le (Nat.le_of_lt size'))
  exact ⟨.call whole args h, start, stop⟩

/-! ## Folding -/

theorem negate {sign : Span} (row : Row lo [sign, operand.span] hi) (h : operand.Nested) :
    Fits lo (negate sign operand) hi := by
  unfold Expr.negate
  split
  · obtain ⟨start, size, after, size', stop⟩ := row
    exact .literal _ ⟨start, Nat.lt_trans size (Nat.lt_of_le_of_lt after size'), stop⟩
  · exact neg row h

theorem combine (row : Row lo (first.span :: steps.flatMap Step.spans) hi) (h : first.Nested)
    (hs : ∀ step ∈ steps, step.operand.Nested) : Fits lo (combine first steps) hi := by
  induction steps generalizing first with
  | nil => exact .of_row h row
  | cons step rest ih =>
    rw [Expr.combine]
    split
    · obtain ⟨start, size, after, size', between, size'', later⟩ := row
      have whole : first.span.start < step.operand.span.stop := by omega
      exact ih ⟨start, whole, later⟩ (.literal _ whole) (List.forall_mem_cons.mp hs).2
    · exact chain row h hs

theorem apply {span : Span} {func : Func} (size : span.start < span.stop)
    (row : Row span.start (args.map Expr.span) span.stop) (h : ∀ arg ∈ args, arg.Nested) :
    Fits span.start (apply span func args) span.stop := by
  unfold Expr.apply
  split
  · exact ⟨.literal _ size, Nat.le_refl _, Nat.le_refl _⟩
  · exact ⟨.call size row h, Nat.le_refl _, Nat.le_refl _⟩

/-- A folded expression stands inside the one it was. -/
theorem fold (h : e.Nested) : Fits e.span.start e.fold e.span.stop := by
  induction h with
  | literal value size => exact .literal value ⟨Nat.le_refl _, size, Nat.le_refl _⟩
  | var name cell size => exact ⟨.var name cell size, Nat.le_refl _, Nat.le_refl _⟩
  | neg row _ ih =>
    obtain ⟨start, size, after, -, stop⟩ := row
    exact negate ⟨start, size, (ih.row.mono after stop)⟩ ih.nested
  | @run span first steps row _ _ ih ihs =>
    obtain ⟨start, -, later⟩ := row
    have later : Row first.span.stop ((foldSteps steps).flatMap Step.spans) span.stop := by
      rw [foldSteps_eq_map]
      refine later.flatMap fun step hs lo hi row => ?_
      obtain ⟨start, size, after, -, stop⟩ := row
      exact ⟨start, size, (ihs step hs).row.mono after stop⟩
    have whole : Row span.start (first.fold.span :: (foldSteps steps).flatMap Step.spans)
        span.stop :=
      Row.append_iff.mpr ⟨_, ih.row.mono start (Nat.le_refl _), later⟩
    refine combine whole ih.nested ?_
    rw [foldSteps_eq_map]
    exact List.forall_mem_map.mpr fun step hs => (ihs step hs).nested
  | @call span func args size row _ ih =>
    refine apply size ?_ ?_ <;> rw [foldArgs_eq_map]
    · rw [List.map_eq_flatMap] at row ⊢
      exact row.flatMap fun arg ha lo hi row => (ih arg ha).row.mono row.1 row.2.2
    · exact List.forall_mem_map.mpr fun arg ha => (ih arg ha).nested

theorem prepare (h : e.Nested) (options : Options) :
    Fits e.span.start (options.prepare e) e.span.stop := by
  unfold Options.prepare
  split
  · exact fold h
  · exact ⟨h, Nat.le_refl _, Nat.le_refl _⟩

end Fits

end Expr

/-! ## Reading -/

namespace Cursor

/-- Tokens are handed out in the order in which they stand. -/
structure Rises (c : Cursor) : Prop where
  size (k : Nat) : (c.nth k).isFinish = false → (c.nth k).span.start < (c.nth k).span.stop
  apart (k : Nat) : (c.nth k).span.stop ≤ (c.nth (k + 1)).span.start

theorem rises {c : Cursor} (h : c.waiting = none) : c.Rises where
  size k more := by
    have waiting := waiting_skip h k
    rw [nth, next_eq_fetch waiting] at more ⊢
    exact Token.start_lt_stop_scan more
  apart k := by
    have waiting := waiting_skip h (k + 1)
    rw [nth, ← position_next (waiting_skip h k), next_skip, nth, next_eq_fetch waiting]
    exact Token.le_start_scan _ _

namespace Rises

variable {c last : Cursor} {k : Nat} {kind : Token.Kind}

theorem past (h : c.Rises) (hp : c.Past k last) : last.Rises where
  size j := by
    rw [hp.nth_eq]
    exact h.size (k + j)
  apart j := by
    rw [hp.nth_eq, hp.nth_eq]
    exact h.apart (k + j)

theorem next (h : c.Rises) : c.next.2.Rises :=
  h.past (.next c)

/-- The token before the end that is handed out next stands in front of those after it. -/
theorem row (h : c.Rises) (hk : c.next.1.kind = kind) (more : kind.isFinish = false) :
    Row c.next.1.span.start [c.next.1.span] c.next.2.next.1.span.start :=
  ⟨Nat.le_refl _, h.size 0 ((Token.isFinish_of_kind hk).trans more), h.apart 0⟩

end Rises

end Cursor

/-- What is said of an answer: what is read stands between the token before which the cursor was
and the token before which it is afterwards. A call starts with its name. -/
def Phrase.Nested (c : Cursor) :
    (phrase : Phrase) → Except Diagnostic phrase.Answer → Cursor → Prop
  | _, error _, _ => True
  | expr _ _, ok e, last => e.Fits c.next.1.span.start last.next.1.span.start
  | operand _, ok e, last => e.Fits c.next.1.span.start last.next.1.span.start
  | steps _ _, ok run, last =>
    Row c.next.1.span.start (run.flatMap Step.spans) last.next.1.span.start ∧
      ∀ step ∈ run, step.operand.Nested
  | call _ _ name, ok e, last =>
    Row name.start [name] c.next.1.span.start → e.Fits name.start last.next.1.span.start
  | args _ _ _, ok (list, close), last =>
    Row c.next.1.span.start (list.map Expr.span ++ [close]) last.next.1.span.start ∧
      ∀ arg ∈ list, arg.Nested

/-- The parts of what is read stand inside it. -/
theorem Reads.nested {scope : Scope} {phrase : Phrase} {c last : Cursor}
    {answer : Except Diagnostic phrase.Answer} (h : Reads scope phrase c answer last)
    (rises : c.Rises) : phrase.Nested c answer last := by
  induction h with
  | tooDeep | exprFails | unbound | parenFails | parenOpen | closed | noOperand | stepFails
  | callUnopened | callMissing | callSurplus | callFails | callTooFew | argFails | argSurplus
  | argOpen => trivial
  | @expr _ _ _ _ _ _ answer reads _ ih₁ ih₂ =>
    obtain ⟨k, taken, -⟩ := reads.ends
    cases answer with
    | error => trivial
    | ok steps =>
      have first := ih₁ rises
      obtain ⟨row, operands⟩ := ih₂ (rises.past taken)
      exact .chain (Row.append_iff.mpr ⟨_, first.row, row⟩) first.nested operands
  | number kind | constant kind => exact .literal _ (rises.row kind rfl)
  | var kind =>
    have row := rises.row kind rfl
    exact ⟨.var _ _ row.2.1, row.1, row.2.2⟩
  | @function _ _ _ _ answer kind _ _ ih =>
    cases answer with
    | error => trivial
    | ok => exact ih rises.next (rises.row kind rfl)
  | @paren _ _ closing _ kind reads close ih =>
    obtain ⟨k, taken, -⟩ := reads.ends
    have opening := rises.row kind rfl
    have closing := (rises.next.past taken).row close rfl
    have inner := ih rises.next
    have row := Row.append_iff.mpr ⟨_, opening, Row.append_iff.mpr ⟨_, inner.row, closing⟩⟩
    exact .paren row inner.nested
  | @minus _ _ _ answer kind _ ih =>
    cases answer with
    | error => trivial
    | ok e =>
      have sign := rises.row kind rfl
      have operand : e.Fits _ _ := ih rises.next
      exact .neg (Row.append_iff.mpr ⟨_, sign, operand.row⟩) operand.nested
  | @plus _ _ _ answer kind _ ih =>
    cases answer with
    | error => trivial
    | ok e =>
      have sign := rises.row kind rfl
      have operand : e.Fits _ _ := ih rises.next
      exact .plus (Row.append_iff.mpr ⟨_, sign, operand.row⟩) operand.nested
  | stop =>
    refine ⟨?_, List.forall_mem_nil _⟩
    rw [Cursor.next_of_peek]
    exact Nat.le_refl _
  | @step _ _ _ _ _ _ _ answer kind _ reads _ ih₁ ih₂ =>
    obtain ⟨k, taken, -⟩ := reads.ends
    cases answer with
    | error => trivial
    | ok steps =>
      have sign := rises.row kind rfl
      have operand := ih₁ rises.next
      obtain ⟨row, operands⟩ := ih₂ (rises.next.past taken)
      have own := Row.append_iff.mpr ⟨_, sign, operand.row⟩
      exact ⟨Row.append_iff.mpr ⟨_, own, row⟩,
        List.forall_mem_cons.mpr ⟨operand.nested, operands⟩⟩
  | callEmpty opening closing _ =>
    intro name
    have row := name.mono (Nat.le_refl _) (rises.row opening rfl).le
    exact .call (Row.append_iff.mpr ⟨_, row, rises.next.row closing rfl⟩) (List.forall_mem_nil _)
  | call opening _ _ _ _ ih =>
    intro name
    have row := name.mono (Nat.le_refl _) (rises.row opening rfl).le
    obtain ⟨inside, args⟩ := ih (rises.next.past (.peek _))
    rw [Cursor.next_of_peek] at inside
    exact .call (Row.append_iff.mpr ⟨_, row, inside⟩) args
  | @arg _ _ _ _ _ _ _ answer reads comma _ _ ih₁ ih₂ =>
    obtain ⟨k, taken, -⟩ := reads.ends
    cases answer with
    | error => trivial
    | ok =>
      have arg := ih₁ rises
      obtain ⟨row, args⟩ := ih₂ (rises.past taken).next
      have comma := (rises.past taken).row comma rfl
      have whole : Row _ ([_] ++ _) _ :=
        Row.append_iff.mpr ⟨_, arg.row, row.mono comma.le (Nat.le_refl _)⟩
      exact ⟨whole,
        List.forall_mem_cons.mpr ⟨arg.nested, args⟩⟩
  | argLast reads close ih =>
    obtain ⟨k, taken, -⟩ := reads.ends
    have arg := ih rises
    have close := (rises.past taken).row close rfl
    exact ⟨Row.append_iff.mpr ⟨_, arg.row, close⟩, List.forall_mem_singleton.mpr arg.nested⟩

/-- The parts of the expression of a text stand inside it. -/
theorem nested_of_parse {scope : Scope} {maxLevels : Nat} {source : String} {e : Expr}
    (h : parse scope maxLevels source = ok e) : e.Nested := by
  obtain ⟨-, last, reads, -⟩ := Parser.parse_eq_ok_iff.mp h
  have rises : (Cursor.ofString source).Rises := Cursor.rises rfl
  exact (reads.nested (rises.past (.peek _)) : e.Fits _ _).nested

end Formula
