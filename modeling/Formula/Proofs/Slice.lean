import Formula.Span
import Formula.Text.Width

/-!
# Parts of a text between two bytes

A text can be cut at a byte if a character starts there or the text ends there
(`Text.Boundary`). `Text.cut?` cuts a text after a number of bytes, and `Text.slice?` takes
what stands at a span out of it. Both have no result where the text cannot be cut.

* `cut?_eq_some_iff`: the two parts make up the text, and the first has that many bytes.
* `slice?_eq_some_iff`: the part makes up the text with what is before and after it.
* `isSome_slice?_iff`: a span can be taken out if it does not end before it starts and the
  text can be cut at both ends.
-/

namespace Formula.Text

variable {bytes : Nat} {text part before after : List Char} {span : Span}

/-- Cuts a text after a number of bytes. -/
def cut? : Nat → List Char → Option (List Char × List Char)
  | 0, text => some ([], text)
  | _ + 1, [] => none
  | n + 1, c :: rest =>
    if c.utf8Size ≤ n + 1 then
      (cut? (n + 1 - c.utf8Size) rest).map fun (before, after) => (c :: before, after)
    else none

/-- What stands at a span of a text. -/
def slice? (text : List Char) (span : Span) : Option (List Char) :=
  if span.start ≤ span.stop then
    (cut? span.start text).bind fun (_, rest) =>
      (cut? (span.stop - span.start) rest).map Prod.fst
  else none

/-- A text can be cut at a byte. -/
def Boundary (text : List Char) (byte : Nat) : Prop :=
  ∃ before after, text = before ++ after ∧ width before = byte

@[simp] theorem cut?_zero (text : List Char) : cut? 0 text = some ([], text) := by
  cases text <;> rfl

theorem cut?_width (before after : List Char) :
    cut? (width before) (before ++ after) = some (before, after) := by
  induction before with
  | nil => exact cut?_zero after
  | cons c rest ih =>
    obtain ⟨n, size⟩ := Nat.exists_eq_add_of_lt (Nat.add_pos_left c.utf8Size_pos (width rest))
    rw [Nat.zero_add] at size
    rw [width_cons, List.cons_append, size, cut?, if_pos (by omega), ← size,
      Nat.add_sub_cancel_left, ih, Option.map_some]

/-- A text that is cut is cut into two parts, the first of which has as many bytes. -/
theorem cut?_eq_some_iff :
    cut? bytes text = some (before, after) ↔ text = before ++ after ∧ width before = bytes := by
  refine ⟨fun h => ?_, ?_⟩
  · induction bytes, text using cut?.induct generalizing before with
    | case1 =>
      rw [cut?_zero] at h
      cases h
      exact ⟨rfl, rfl⟩
    | case2 => cases h
    | case3 n c rest fits ih =>
      rw [cut?, if_pos fits] at h
      obtain ⟨⟨front, back⟩, found, parts⟩ := Option.map_eq_some_iff.mp h
      cases parts
      obtain ⟨rfl, size⟩ := ih found
      exact ⟨rfl, by rw [width_cons]; omega⟩
    | case4 n c rest long =>
      rw [cut?, if_neg long] at h
      cases h
  · rintro ⟨rfl, rfl⟩
    exact cut?_width before after

theorem boundary_append (before after : List Char) : Boundary (before ++ after) (width before) :=
  ⟨before, after, rfl, rfl⟩

/-- A boundary does not lie past the end of the text. -/
theorem Boundary.le_width (h : Boundary text bytes) : bytes ≤ width text := by
  obtain ⟨before, after, rfl, rfl⟩ := h
  rw [width_append]
  exact Nat.le_add_right _ _

/-- What is taken out of a text stands in it, at the span. -/
theorem slice?_eq_some_iff :
    slice? text span = some part ↔
      ∃ before after, text = before ++ (part ++ after) ∧ span.start = width before ∧
        span.stop = width before + width part := by
  unfold slice?
  constructor
  · intro h
    split at h
    · rename_i le
      obtain ⟨⟨before, rest⟩, first, h⟩ := Option.bind_eq_some_iff.mp h
      obtain ⟨⟨_, after⟩, second, rfl⟩ := Option.map_eq_some_iff.mp h
      obtain ⟨rfl, start⟩ := cut?_eq_some_iff.mp first
      obtain ⟨rfl, size⟩ := cut?_eq_some_iff.mp second
      exact ⟨before, after, rfl, start.symm, by simp only; omega⟩
    · cases h
  · rintro ⟨before, after, rfl, start, stop⟩
    rw [if_pos (by omega), start, stop, cut?_width, Option.bind_some, Nat.add_sub_cancel_left]
    simp only [cut?_width, Option.map_some]

/-- Where a text can be cut at two bytes, the text between them can be taken out. -/
theorem isSome_slice?_iff :
    (slice? text span).isSome = true ↔
      span.start ≤ span.stop ∧ Boundary text span.start ∧ Boundary text span.stop := by
  rw [Option.isSome_iff_exists]
  constructor
  · rintro ⟨part, found⟩
    obtain ⟨before, after, rfl, start, stop⟩ := slice?_eq_some_iff.mp found
    refine ⟨by omega, start ▸ boundary_append _ _, ?_⟩
    rw [stop, ← width_append, ← List.append_assoc]
    exact boundary_append _ _
  · rintro ⟨le, ⟨before, rest, rfl, start⟩, front, after, parts, stop⟩
    rcases List.append_eq_append_iff.mp parts with ⟨part, rfl, rfl⟩ | ⟨part, rfl, rfl⟩
    · exact ⟨part, slice?_eq_some_iff.mpr ⟨before, after, rfl, start.symm, by
        rw [← stop, width_append]⟩⟩
    · -- the second cut comes before the first only if nothing is between them
      have none : part = [] := width_eq_zero_iff.mp (by rw [width_append] at start; omega)
      subst none
      rw [List.append_nil] at start ⊢
      exact ⟨[], slice?_eq_some_iff.mpr ⟨front, rest, rfl, start.symm, stop.symm⟩⟩

/-- A text can be cut between characters, but not in the middle of one. -/
example : slice? "1+é".toList ⟨1, 2⟩ = some ['+'] ∧ slice? "1+é".toList ⟨2, 3⟩ = none ∧
    slice? "1+é".toList ⟨3, 5⟩ = none := by
  decide

end Formula.Text
