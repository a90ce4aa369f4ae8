import Formula.Token.Scan

/-!
# Cursors

A cursor stands in a text and hands out its tokens one by one. It scans no further
than it is asked to, and can look at a token before handing it out.

* `Cursor.peek`, `Cursor.next`: the next token, kept and handed out. After the last
  token both give the end of the text, as often as they are asked.
* `Cursor.step`: the next token as a stream gives it, which stops for good at the end
  of the text or after the first token that is invalid.
* `Cursor.bound`: a number that every token handed out makes smaller
  (`bound_next_lt`), by which all reading ends.
-/

namespace Formula

/-- A place in a text between two tokens. -/
structure Cursor where
  /-- The characters that are not scanned yet. -/
  rest : List Char
  /-- The byte at which they start. -/
  position : Nat
  /-- A token that is scanned and not handed out. -/
  waiting : Option Token
  /-- How many tokens are scanned; the end of the text is not counted. -/
  scanned : Nat
  /-- Whether the stream of tokens has stopped. -/
  stopped : Bool

namespace Cursor

/-- The cursor at the start of a text. -/
def ofString (source : String) : Cursor :=
  ⟨source.toList, 0, none, 0, false⟩

/-- Scans one token. -/
def fetch (c : Cursor) : Token × Cursor :=
  let (token, rest) := Token.scan c.position c.rest
  (token,
    { c with
      rest := rest
      position := token.span.stop
      scanned := if token.isFinish then c.scanned else c.scanned + 1 })

/-- The next token, which stays the next one. -/
def peek (c : Cursor) : Token × Cursor :=
  match c.waiting with
  | some token => (token, c)
  | none =>
    let (token, after) := c.fetch
    (token, { after with waiting := some token })

/-- The next token, handed out. -/
def next (c : Cursor) : Token × Cursor :=
  match c.waiting with
  | some token => (token, { c with waiting := none })
  | none => c.fetch

/-- The next token of the stream, if it has not stopped. -/
def step (c : Cursor) : Option Token × Cursor :=
  if c.stopped then (none, c)
  else
    let (token, after) := c.next
    match token.kind with
    | .finish => (none, { after with stopped := true })
    | .invalid _ => (some token, { after with stopped := true })
    | _ => (some token, after)

/-- A number that bounds how many tokens can still be handed out. -/
def bound (c : Cursor) : Nat :=
  match c.waiting with
  | none => c.rest.length
  | some token => if token.isFinish then c.rest.length else c.rest.length + 1

theorem bound_fetch_le (c : Cursor) : c.fetch.2.rest.length ≤ c.rest.length :=
  Token.length_scan_le c.position c.rest

theorem bound_fetch_lt {c : Cursor} (h : c.fetch.1.isFinish = false) :
    c.fetch.2.rest.length < c.rest.length :=
  Token.length_scan_lt h

theorem waiting_fetch (c : Cursor) : c.fetch.2.waiting = c.waiting := rfl

/-- Handing out a token never adds any. -/
theorem bound_next_le (c : Cursor) : c.next.2.bound ≤ c.bound := by
  cases waiting : c.waiting with
  | none => simp [next, bound, waiting, waiting_fetch, bound_fetch_le]
  | some token => simp only [next, bound, waiting]; split <;> omega

/-- Each token handed out before the end makes the bound smaller. -/
theorem bound_next_lt {c : Cursor} (h : c.next.1.isFinish = false) :
    c.next.2.bound < c.bound := by
  cases waiting : c.waiting with
  | none =>
    simp only [next, waiting] at h ⊢
    simpa [bound, waiting, waiting_fetch] using bound_fetch_lt h
  | some token =>
    simp only [next, waiting] at h ⊢
    simp [bound, waiting, h]

/-- Each token of a kind that is not the end makes the bound smaller. -/
theorem bound_next_lt_of_kind {c : Cursor} {kind : Token.Kind} (h : c.next.1.kind = kind)
    (more : kind.isFinish = false) : c.next.2.bound < c.bound :=
  bound_next_lt (by rw [Token.isFinish, h, more])

/-- Looking at a token adds none. -/
theorem bound_peek_le (c : Cursor) : c.peek.2.bound ≤ c.bound := by
  cases waiting : c.waiting with
  | none =>
    have shorter := bound_fetch_le c
    cases finish : c.fetch.1.isFinish with
    | true => simp [peek, bound, waiting, finish, shorter]
    | false =>
      have := bound_fetch_lt finish
      simp only [peek, bound, waiting, finish, Bool.false_eq_true, if_false]
      omega
  | some token => simp [peek, waiting]

/-- The token that was looked at is the one handed out next. -/
theorem next_peek (c : Cursor) : c.peek.2.next.1 = c.peek.1 := by
  cases waiting : c.waiting <;> simp [peek, next, waiting]

/-- Handing out the token that was looked at makes the bound smaller. -/
theorem bound_next_peek_lt_of_kind {c : Cursor} {kind : Token.Kind} (h : c.peek.1.kind = kind)
    (more : kind.isFinish = false) : c.peek.2.next.2.bound < c.bound :=
  Nat.lt_of_lt_of_le (bound_next_lt_of_kind (by rwa [next_peek]) more) (bound_peek_le c)

/-- Each token of the stream makes the bound smaller. -/
theorem bound_step_lt {c : Cursor} {token : Token} (h : c.step.1 = some token) :
    c.step.2.bound < c.bound := by
  simp only [step] at h ⊢
  split at h
  · simp at h
  · rename_i running
    simp only [running]
    cases kind : c.next.1.kind <;> simp only [kind] at h ⊢ <;> try contradiction
    all_goals exact bound_next_lt (by simp [Token.isFinish, kind, Token.Kind.isFinish])

/-- The tokens the stream still gives, and the cursor after them. -/
def drain (c : Cursor) : List Token × Cursor :=
  match _found : c.step with
  | (none, after) => ([], after)
  | (some token, after) =>
    let (tokens, last) := drain after
    (token :: tokens, last)
termination_by c.bound
decreasing_by
  have less : c.step.2.bound < c.bound := bound_step_lt (congrArg Prod.fst _found)
  rwa [_found] at less

end Cursor

end Formula
