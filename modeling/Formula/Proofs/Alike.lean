import Formula.Expr.Basic
import Formula.Proofs.Place

/-!
# Tokens and expressions that differ in where they stand

The spans of an expression can be replaced by others throughout (`Expr.mapSpan`). If a
replacement is a `Span.Spread`, it makes no difference whether it is done before or after an
expression is put together from its parts.

Two cursors agree up to a place if the tokens that come before and at it are spelled the
same and their spans are replaced by the same spans (`Cursor.Agree`).
-/

namespace Formula

/-- A replacement of spans that keeps stretches stretches. -/
def Span.Spread (f : Span → Span) : Prop :=
  ∀ a b : Span, f (a.through b) = (f a).through (f b)

namespace Expr

mutual

/-- The expression with other spans. -/
def mapSpan (f : Span → Span) : Expr → Expr
  | literal span value => .literal (f span) value
  | var span name cell => .var (f span) name cell
  | neg span sign operand => .neg (f span) (f sign) (operand.mapSpan f)
  | run span first steps => .run (f span) (first.mapSpan f) (mapSpanSteps f steps)
  | call span func args => .call (f span) func (mapSpanArgs f args)
termination_by structural e => e

/-- Steps with other spans. -/
def mapSpanSteps (f : Span → Span) : List (Step Expr) → List (Step Expr)
  | [] => []
  | ⟨op, span, operand⟩ :: rest => ⟨op, f span, operand.mapSpan f⟩ :: mapSpanSteps f rest
termination_by structural steps => steps

/-- Arguments with other spans. -/
def mapSpanArgs (f : Span → Span) : List Expr → List Expr
  | [] => []
  | arg :: rest => arg.mapSpan f :: mapSpanArgs f rest
termination_by structural args => args

end

variable {f g : Span → Span}

@[simp] theorem span_mapSpan (f : Span → Span) (e : Expr) : (e.mapSpan f).span = f e.span := by
  cases e <;> rfl

@[simp] theorem mapSpan_withSpan (f : Span → Span) (span : Span) (e : Expr) :
    (e.withSpan span).mapSpan f = (e.mapSpan f).withSpan (f span) := by
  cases e <;> rfl

theorem mapSpanSteps_eq_map (f : Span → Span) (steps : List (Step Expr)) :
    mapSpanSteps f steps =
      steps.map fun step => ⟨step.op, f step.span, step.operand.mapSpan f⟩ := by
  induction steps with
  | nil => rfl
  | cons step rest ih => rw [mapSpanSteps, ih]; rfl

theorem mapSpanArgs_eq_map (f : Span → Span) (args : List Expr) :
    mapSpanArgs f args = args.map (mapSpan f) := by
  induction args with
  | nil => rfl
  | cons arg rest ih => rw [mapSpanArgs, ih]; rfl

@[simp] theorem length_mapSpanArgs (f : Span → Span) (args : List Expr) :
    (mapSpanArgs f args).length = args.length := by
  rw [mapSpanArgs_eq_map, List.length_map]

theorem mapSpan_chain (h : Span.Spread f) (first : Expr) (steps : List (Step Expr)) :
    (chain first steps).mapSpan f = chain (first.mapSpan f) (mapSpanSteps f steps) := by
  rw [mapSpanSteps_eq_map]
  unfold chain
  rw [List.getLast?_map]
  cases steps.getLast? with
  | none => rfl
  | some last => simp [mapSpan, h first.span, mapSpanSteps_eq_map]

/-- Two expressions become the same when their spans are replaced. -/
def Alike (f g : Span → Span) (e e' : Expr) : Prop :=
  e.mapSpan f = e'.mapSpan g

namespace Alike

variable {e e' : Expr} {a b a' b' : Span}

theorem span (h : e.Alike f g e') : f e.span = g e'.span := by
  simpa using congrArg Expr.span h

theorem chain (hf : Span.Spread f) (hg : Span.Spread g) (h : e.Alike f g e')
    {steps steps' : List (Step Expr)} (hs : mapSpanSteps f steps = mapSpanSteps g steps') :
    (chain e steps).Alike f g (Expr.chain e' steps') := by
  rw [Alike, mapSpan_chain hf, mapSpan_chain hg, hs, h]

/-- Alike expressions that are said to go from one span to another. -/
theorem through (hf : Span.Spread f) (hg : Span.Spread g) (h : e.Alike f g e')
    (start : f a = g a') (stop : f b = g b') :
    (e.withSpan (a.through b)).Alike f g (e'.withSpan (a'.through b')) := by
  rw [Alike, mapSpan_withSpan, mapSpan_withSpan, hf, hg, start, stop, h]

theorem neg (hf : Span.Spread f) (hg : Span.Spread g) (h : e.Alike f g e') (sign : f a = g a') :
    (neg (a.through e.span) a e).Alike f g (Expr.neg (a'.through e'.span) a' e') := by
  rw [Alike, mapSpan, mapSpan, hf, hg, sign, h.span, h]

theorem call (hf : Span.Spread f) (hg : Span.Spread g) (func : Func) {args args' : List Expr}
    (h : mapSpanArgs f args = mapSpanArgs g args') (name : f a = g a') (close : f b = g b') :
    (call (a.through b) func args).Alike f g (Expr.call (a'.through b') func args') := by
  rw [Alike, mapSpan, mapSpan, hf, hg, name, close, h]

end Alike

/-- Nothing changes if every span stays as it is. -/
theorem mapSpan_id (e : Expr) : e.mapSpan id = e := by
  induction e using Expr.induction with
  | literal | var => rfl
  | neg _ _ _ ih => rw [mapSpan, ih]; rfl
  | run _ _ steps ih ihs =>
    have same : mapSpanSteps id steps = steps := by
      rw [mapSpanSteps_eq_map]
      exact (List.map_congr_left fun step h => by rw [ihs step h]; rfl).trans (List.map_id steps)
    rw [mapSpan, ih, same]; rfl
  | call _ _ args ih =>
    have same : mapSpanArgs id args = args := by
      rw [mapSpanArgs_eq_map]
      exact (List.map_congr_left ih).trans (List.map_id args)
    rw [mapSpan, same]; rfl

end Expr

namespace Token

/-- Two tokens are of one kind and spelled the same, and their spans are replaced by the same
span. -/
structure Alike (f g : Span → Span) (a b : Token) : Prop where
  kind : b.kind = a.kind
  text : b.text = a.text
  span : f a.span = g b.span

end Token

namespace Cursor

/-- The tokens at places up to `k` are alike. -/
def Agree (f g : Span → Span) (k : Nat) (c c' : Cursor) : Prop :=
  ∀ i ≤ k, Token.Alike f g (c.nth i) (c'.nth i)

namespace Agree

variable {f g : Span → Span} {k m : Nat} {c c' last last' : Cursor}

theorem first (h : c.Agree f g k c') : Token.Alike f g c.next.1 c'.next.1 :=
  h 0 (Nat.zero_le k)

theorem mono (h : c.Agree f g k c') (le : m ≤ k) : c.Agree f g m c' :=
  fun i hi => h i (Nat.le_trans hi le)

/-- What comes after as many tokens of both agrees too. -/
theorem past (h : c.Agree f g (m + k) c') (hc : c.Past m last) (hc' : c'.Past m last') :
    last.Agree f g k last' := by
  intro i hi
  rw [hc.nth_eq, hc'.nth_eq]
  exact h (m + i) (Nat.add_le_add_left hi m)

/-- The tokens at which as many tokens of both have come before. -/
theorem ending (h : c.Agree f g k c') (hc : c.Past k last) (hc' : c'.Past k last') :
    Token.Alike f g last.next.1 last'.next.1 := by
  rw [hc.first_eq, hc'.first_eq]
  exact h k (Nat.le_refl k)

theorem next (h : c.Agree f g (1 + k) c') : c.next.2.Agree f g k c'.next.2 :=
  h.past (.next c) (.next c')

end Agree

end Cursor

end Formula
