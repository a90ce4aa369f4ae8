import Formula.Proofs.Alike

/-!
# Parts of a text

A cursor somewhere in a text hands out the tokens of what is left of it, as if that were a text
of its own, only with spans that count from the start of the whole (`Cursor.Tails`).
-/

namespace Formula

open Text (isBlank width)

/-- The same stretch of a text after more bytes. -/
def Span.shift (bytes : Nat) (a : Span) : Span :=
  ⟨bytes + a.start, bytes + a.stop⟩

theorem Span.spread_shift (bytes : Nat) : Span.Spread (Span.shift bytes) :=
  fun _ _ => rfl

/-- The same token after more bytes. -/
def Token.shift (bytes : Nat) (token : Token) : Token :=
  { token with span := token.span.shift bytes }

/-- Scanning counts from the position it is given. -/
theorem Token.scan_add (bytes position : Nat) (text : List Char) :
    scan (bytes + position) text =
      ((scan position text).1.shift bytes, (scan position text).2) := by
  simp only [scan]
  split <;> simp [shift, Span.shift, Span.point, Nat.add_assoc]

/-- What a scan leaves is an end of what it was given. -/
theorem Token.scan_suffix (position : Nat) (text : List Char) :
    (scan position text).2 <:+ text := by
  simp only [scan]
  split
  · exact List.nil_suffix
  · rename_i c rest found
    have taken : (take c rest).rest <:+ c :: rest := ⟨_, take_append c rest⟩
    rw [← found] at taken
    exact taken.trans (List.dropWhile_suffix isBlank)

namespace Cursor

/-- The first cursor is in front of the same characters as the second, after more bytes. -/
structure Tails (bytes : Nat) (c c' : Cursor) : Prop where
  waiting : c.waiting = none
  waiting' : c'.waiting = none
  rest : c.rest = c'.rest
  position : c.position = bytes + c'.position

namespace Tails

variable {bytes : Nat} {c c' : Cursor}

theorem first (h : Tails bytes c c') : c.next.1 = c'.next.1.shift bytes := by
  rw [next_eq_fetch h.waiting, next_eq_fetch h.waiting', fetch, fetch, h.rest, h.position,
    Token.scan_add]

theorem next (h : Tails bytes c c') : Tails bytes c.next.2 c'.next.2 := by
  refine ⟨waiting_next h.waiting, waiting_next h.waiting', ?_, ?_⟩
  · rw [next_eq_fetch h.waiting, next_eq_fetch h.waiting', fetch, fetch, h.rest, h.position,
      Token.scan_add]
  · rw [position_next h.waiting, position_next h.waiting', h.first]
    rfl

theorem nth (h : Tails bytes c c') (k : Nat) : c.nth k = (c'.nth k).shift bytes := by
  induction k generalizing c c' with
  | zero => exact h.first
  | succ k ih => exact ih h.next

theorem agree (h : Tails bytes c c') (k : Nat) : c.Agree id (Span.shift bytes) k c' := by
  intro i _
  rw [h.nth]
  exact ⟨rfl, rfl, rfl⟩

theorem ahead (h : Tails bytes c c') : c.ahead = c'.ahead.map (Token.shift bytes) := by
  induction c' using ahead.induct generalizing c with
  | case1 c' finish =>
    have finish' : c.next.1.isFinish = true := by rwa [h.first]
    rw [ahead_of_finish finish, ahead_of_finish finish', List.map_nil]
  | case2 c' more ih =>
    have finish : c'.next.1.isFinish = false := by simpa using more
    have finish' : c.next.1.isFinish = false := by rwa [h.first]
    rw [ahead_of_more finish, ahead_of_more finish', List.map_cons, ih h.next, h.first]

end Tails

theorem suffix_skip {c : Cursor} (h : c.waiting = none) (k : Nat) : (c.skip k).rest <:+ c.rest := by
  induction k generalizing c with
  | zero => exact List.suffix_rfl
  | succ k ih =>
    refine (ih (waiting_next h)).trans ?_
    rw [next_eq_fetch h]
    exact Token.scan_suffix c.position c.rest

/-- After some tokens of a text a cursor is in front of an end of it. -/
theorem tails_skip (source : String) (k : Nat) :
    ∃ before after, source.toList = before ++ after ∧
      Tails (width before) ((ofString source).skip k) (ofString (String.ofList after)) := by
  have waiting : (ofString source).waiting = none := rfl
  obtain ⟨before, split⟩ := suffix_skip waiting k
  refine ⟨before, ((ofString source).skip k).rest, split.symm, waiting_skip waiting k, rfl, ?_, ?_⟩
  · simp [ofString]
  · have size := size_skip waiting k
    have whole := congrArg width split
    simp only [Cursor.size, ofString, Text.width_append] at size whole ⊢
    omega

end Cursor

end Formula
