/-!
# Spans of source text

A span is the stretch of a formula's text that a token, a sub-expression or a
diagnostic is about, counted in bytes of the text's UTF-8 form.

* `Span.point`: the empty span at an offset, for what happens at the end of the text.
* `Span.through`: from where one span starts to where another stops.
-/

namespace Formula

/-- The bytes from `start` up to, but not including, `stop`. -/
structure Span where
  start : Nat
  stop : Nat
deriving DecidableEq

namespace Span

/-- The empty span at an offset. -/
def point (offset : Nat) : Span :=
  ⟨offset, offset⟩

/-- From the start of the first span to the end of the second. -/
def through (a b : Span) : Span :=
  ⟨a.start, b.stop⟩

/-- How many bytes a span covers. -/
def width (a : Span) : Nat :=
  a.stop - a.start

@[simp] theorem through_self (a : Span) : a.through a = a := rfl

end Span

end Formula
