import Formula.Cursor

/-!
# The tokens ahead of a cursor

What a cursor will still hand out, as a list (`Cursor.ahead`). Asking for the next token
takes the head off this list (`next_of_ahead`), and looking at a token leaves it as it is
(`ahead_peek`): whether a token was looked at before makes no difference to what follows
(`next_of_peek`). The tokens of a text are those ahead of the cursor at its start
(`tokens`).
-/

namespace Formula

theorem Token.isFinish_of_kind {token : Token} {kind : Kind} (h : token.kind = kind) :
    token.isFinish = kind.isFinish := by
  rw [isFinish, h]

namespace Cursor

/-- The tokens up to the end of the text, which is not one of them. -/
def ahead (c : Cursor) : List Token :=
  if _finish : c.next.1.isFinish then [] else c.next.1 :: c.next.2.ahead
termination_by c.bound
decreasing_by exact bound_next_lt (by simpa using _finish)

/-- Looking at a token gives the token that is handed out next. -/
theorem fst_peek (c : Cursor) : c.peek.1 = c.next.1 := by
  cases waiting : c.waiting <;> simp [peek, next, waiting]

/-- After looking at a token all is handed out as if nobody had looked. -/
theorem next_of_peek (c : Cursor) : c.peek.2.next = c.next := by
  cases waiting : c.waiting <;> simp [peek, next, fetch, waiting]

theorem ahead_of_finish {c : Cursor} (h : c.next.1.isFinish = true) : c.ahead = [] := by
  rw [ahead, dif_pos h]

theorem ahead_of_more {c : Cursor} (h : c.next.1.isFinish = false) :
    c.ahead = c.next.1 :: c.next.2.ahead := by
  rw [ahead, dif_neg (by simp [h])]

theorem ahead_of_kind {c : Cursor} {kind : Token.Kind} (h : c.next.1.kind = kind)
    (more : kind.isFinish = false) : c.ahead = c.next.1 :: c.next.2.ahead :=
  ahead_of_more ((Token.isFinish_of_kind h).trans more)

/-- Tokens that are taken after the next one. -/
theorem ahead_cons {c last : Cursor} {kind : Token.Kind} {ts : List Token}
    (h : c.next.1.kind = kind) (more : kind.isFinish = false)
    (taken : c.next.2.ahead = ts ++ last.ahead) : c.ahead = (c.next.1 :: ts) ++ last.ahead := by
  rw [ahead_of_kind h more, taken, List.cons_append]

/-- A token that is taken after some others. -/
theorem ahead_concat {c last : Cursor} {kind : Token.Kind} {ts : List Token}
    (taken : c.ahead = ts ++ last.ahead) (h : last.next.1.kind = kind)
    (more : kind.isFinish = false) : c.ahead = (ts ++ [last.next.1]) ++ last.next.2.ahead := by
  rw [taken, ahead_of_kind h more, List.append_cons]

/-- No token is ahead at the end of the text only. -/
theorem ahead_eq_nil_iff {c : Cursor} : c.ahead = [] ↔ c.next.1.isFinish = true := by
  refine ⟨fun h => ?_, ahead_of_finish⟩
  cases finish : c.next.1.isFinish with
  | true => rfl
  | false => rw [ahead_of_more finish] at h; cases h

/-- The first token ahead is the next one, and handing it out leaves the others. -/
theorem next_of_ahead {c : Cursor} {token : Token} {rest : List Token}
    (h : c.ahead = token :: rest) : c.next.1 = token ∧ c.next.2.ahead = rest := by
  cases finish : c.next.1.isFinish with
  | true => rw [ahead_of_finish finish] at h; cases h
  | false =>
    rw [ahead_of_more finish] at h
    exact List.cons.inj h

/-- Looking at a token takes none away. -/
theorem ahead_peek (c : Cursor) : c.peek.2.ahead = c.ahead := by
  rw [ahead, next_of_peek, ← ahead]

end Cursor

/-- The tokens of a text. -/
def tokens (source : String) : List Token :=
  (Cursor.ofString source).ahead

end Formula
