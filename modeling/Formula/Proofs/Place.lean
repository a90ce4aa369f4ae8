import Formula.Proofs.Ahead

/-!
# Places among the tokens of a text

A cursor of a text is told by how many tokens it has handed out (`Cursor.skip`), and whether
it has looked at the next one (`Cursor.Past`). The token at a place (`Cursor.nth`) is the one
in the list of those ahead, and past them the end of the text, again and again.

The tokens of a text follow each other without overlap up to its end (`Cursor.ordered_ahead`),
so a token is known by its span: where a span starts tells how many tokens are before it
(`Ordered.eq_of_spanAt`).
-/

namespace Formula

open Text (isBlank width)

/-- The span of the first of some tokens, or of the end of a text if there are none. -/
def spanAt (size : Nat) : List Token → Span
  | [] => .point size
  | token :: _ => token.span

/-- Tokens that stand one after the other in a text of a size. -/
structure Ordered (size : Nat) (ts : List Token) : Prop where
  apart : ts.Pairwise fun a b => a.span.stop ≤ b.span.start
  inside : ∀ token ∈ ts, token.span.start < token.span.stop ∧ token.span.stop ≤ size

namespace Ordered

variable {size : Nat} {token : Token} {ts before rest before' rest' : List Token}

theorem of_append (h : Ordered size (before ++ rest)) : Ordered size rest :=
  ⟨(List.pairwise_append.mp h.apart).2.1, fun _ ht => h.inside _ (List.mem_append_right _ ht)⟩

/-- Whatever comes after a token starts after it. -/
theorem start_lt (h : Ordered size (token :: (ts ++ rest))) :
    token.span.start < (spanAt size rest).start := by
  obtain ⟨lt, le⟩ := h.inside token List.mem_cons_self
  cases rest with
  | nil => exact Nat.lt_of_lt_of_le lt le
  | cons next _ =>
    have apart := (List.pairwise_cons.mp h.apart).1 next (by simp)
    exact Nat.lt_of_lt_of_le lt apart

/-- Two places of which one span is said are one place. -/
theorem eq_of_spanAt (h : Ordered size (before ++ rest))
    (e : before ++ rest = before' ++ rest') (span : spanAt size rest = spanAt size rest') :
    before = before' ∧ rest = rest' := by
  rcases List.append_eq_append_iff.mp e with ⟨mid, rfl, rfl⟩ | ⟨mid, rfl, rfl⟩
  · cases mid with
    | nil => exact ⟨(List.append_nil _).symm, rfl⟩
    | cons token mid => exact absurd (congrArg Span.start span) (Nat.ne_of_lt h.of_append.start_lt)
  · rw [List.append_assoc] at h
    cases mid with
    | nil => exact ⟨List.append_nil _, rfl⟩
    | cons token mid =>
      exact absurd (congrArg Span.start span).symm (Nat.ne_of_lt h.of_append.start_lt)

end Ordered

namespace Token

/-- Scanning goes from a position to the end of a token, and leaves what is after it. -/
theorem stop_add_width_scan (position : Nat) (text : List Char) :
    (scan position text).1.span.stop + width (scan position text).2 = position + width text := by
  have whole := congrArg width (List.takeWhile_append_dropWhile (p := isBlank) (l := text))
  rw [Text.width_append] at whole
  simp only [scan]
  split
  · rename_i found
    rw [found] at whole
    rw [← whole]
    rfl
  · rename_i c rest found
    have parts := congrArg width (take_append c rest)
    rw [Text.width_append] at parts
    rw [found] at whole
    simp only
    omega

theorem le_start_scan (position : Nat) (text : List Char) :
    position ≤ (scan position text).1.span.start := by
  simp only [scan]
  split <;> exact Nat.le_add_right _ _

/-- A token before the end takes up some of the text. -/
theorem start_lt_stop_scan {position : Nat} {text : List Char}
    (h : (scan position text).1.isFinish = false) :
    (scan position text).1.span.start < (scan position text).1.span.stop := by
  simp only [scan] at h ⊢
  split
  · rename_i found
    simp [found, isFinish, Kind.isFinish] at h
  · rename_i c rest found
    have some : width (take c rest).text ≠ 0 := fun none =>
      take_ne_nil c rest (Text.width_eq_zero_iff.mp none)
    simp only
    omega

/-- Taking a token that is there gives no mark of the end. -/
theorem isFinish_take (c : Char) (rest : List Char) : (take c rest).kind.isFinish = false := by
  simp only [take]
  split
  · simp only [Kind.ofNumeral]
    split
    · rfl
    · split <;> rfl
  · split
    · rfl
    · simp only [take.single]
      split <;> try rfl
      split <;> rfl

/-- The mark of the end stands at the end, with nothing after it. -/
theorem scan_of_finish {position : Nat} {text : List Char}
    (h : (scan position text).1.isFinish = true) :
    scan position text = (⟨.finish, .point (position + width text), ""⟩, []) := by
  have whole := congrArg width (List.takeWhile_append_dropWhile (p := isBlank) (l := text))
  simp only [scan] at h ⊢
  split
  · rename_i found
    rw [found, List.append_nil] at whole
    rw [whole]
  · rename_i c rest found
    simp [found, isFinish, isFinish_take] at h

end Token

namespace Cursor

/-- The cursor after a number of tokens. -/
def skip : Nat → Cursor → Cursor
  | 0, c => c
  | n + 1, c => skip n c.next.2

/-- The token that comes after a number of tokens. -/
def nth (c : Cursor) (n : Nat) : Token :=
  (c.skip n).next.1

/-- The byte at which the text of a cursor ends. -/
def size (c : Cursor) : Nat :=
  c.position + width c.rest

/-- The second cursor stands a number of tokens after the first, and may have looked at the
next one. -/
def Past (c : Cursor) (n : Nat) (last : Cursor) : Prop :=
  last = c.skip n ∨ last = (c.skip n).peek.2

theorem skip_skip (c : Cursor) (m n : Nat) : (c.skip m).skip n = c.skip (m + n) := by
  induction m generalizing c with
  | zero => rw [Nat.zero_add]; rfl
  | succ m ih => rw [Nat.succ_add]; exact ih c.next.2

theorem next_skip (c : Cursor) (n : Nat) : (c.skip n).next.2 = c.skip (n + 1) :=
  c.skip_skip n 1

theorem nth_skip (c : Cursor) (m n : Nat) : (c.skip m).nth n = c.nth (m + n) := by
  rw [nth, skip_skip, nth]

theorem peek_peek (c : Cursor) : c.peek.2.peek.2 = c.peek.2 := by
  cases waiting : c.waiting <;> simp [peek, waiting]

/-! ## Cursors past some tokens -/

namespace Past

variable {c middle last : Cursor} {m n : Nat}

theorem zero (c : Cursor) : c.Past 0 c :=
  .inl rfl

theorem next (c : Cursor) : c.Past 1 c.next.2 :=
  .inl rfl

theorem peek (c : Cursor) : c.Past 0 c.peek.2 :=
  .inr rfl

theorem next_eq (h : c.Past n last) : last.next = (c.skip n).next := by
  rcases h with rfl | rfl
  · rfl
  · exact next_of_peek _

theorem peek_eq (h : c.Past n last) : last.peek.2 = (c.skip n).peek.2 := by
  rcases h with rfl | rfl
  · rfl
  · exact peek_peek _

theorem skip_eq (h : c.Past n last) (k : Nat) : last.skip (k + 1) = c.skip (n + k + 1) := by
  rw [skip, h.next_eq, next_skip, skip_skip, Nat.add_right_comm]

theorem trans (h : c.Past m middle) (h' : middle.Past n last) : c.Past (m + n) last := by
  cases n with
  | zero =>
    rcases h' with rfl | rfl
    · exact h
    · exact .inr h.peek_eq
  | succ n => rwa [Past, h.skip_eq] at h'

theorem nth_eq (h : c.Past n last) (k : Nat) : last.nth k = c.nth (n + k) := by
  cases k with
  | zero => rw [nth, skip, h.next_eq]; rfl
  | succ k => rw [nth, h.skip_eq, nth, Nat.add_assoc]

theorem first_eq (h : c.Past n last) : last.next.1 = c.nth n :=
  h.nth_eq 0

theorem ahead_eq (h : c.Past n last) : last.ahead = (c.skip n).ahead := by
  rcases h with rfl | rfl
  · rfl
  · exact ahead_peek _

end Past

/-- Every token that is handed out has a property, the end of the text too. -/
def All (Q : Token → Prop) (c : Cursor) : Prop :=
  ∀ k, Q (c.nth k)

namespace All

variable {Q : Token → Prop} {c last : Cursor} {k : Nat}

theorem first (h : c.All Q) : Q c.next.1 :=
  h 0

theorem past (h : c.All Q) (hp : c.Past k last) : last.All Q := by
  intro j
  rw [hp.nth_eq]
  exact h (k + j)

theorem next (h : c.All Q) : c.next.2.All Q :=
  h.past (.next c)

end All

/-! ## Places and lists -/

theorem ahead_skip_append {c : Cursor} {before rest : List Token} (h : c.ahead = before ++ rest) :
    (c.skip before.length).ahead = rest := by
  induction before generalizing c with
  | nil => exact h
  | cons token before ih => exact ih (next_of_ahead h).2

/-- A token ahead is the one at its place in the list. -/
theorem nth_append {c : Cursor} {before rest : List Token} {token : Token}
    (h : c.ahead = before ++ token :: rest) : c.nth before.length = token :=
  (next_of_ahead (ahead_skip_append h)).1

theorem nth_getElem {c : Cursor} {n : Nat} (h : n < c.ahead.length) : c.nth n = c.ahead[n] := by
  have split : c.ahead = c.ahead.take n ++ c.ahead[n] :: c.ahead.drop (n + 1) := by
    rw [← List.drop_eq_getElem_cons h, List.take_append_drop]
  have found := nth_append split
  rwa [List.length_take, Nat.min_eq_left (Nat.le_of_lt h)] at found

/-! ## Cursors that have not looked ahead -/

section NoneWaiting

variable {c : Cursor} (h : c.waiting = none)
include h

theorem next_eq_fetch : c.next = c.fetch := by
  simp only [next, h]

theorem waiting_next : c.next.2.waiting = none := by
  rw [next_eq_fetch h, waiting_fetch, h]

theorem size_next : c.next.2.size = c.size := by
  rw [next_eq_fetch h]
  exact Token.stop_add_width_scan c.position c.rest

theorem position_next : c.next.2.position = c.next.1.span.stop := by
  rw [next_eq_fetch h]
  rfl

theorem position_peek : c.peek.2.position = c.next.1.span.stop := by
  rw [next_eq_fetch h]
  simp only [peek, h]
  rfl

/-- The mark of the end of a text. -/
theorem next_of_finish (finish : c.next.1.isFinish = true) :
    c.next.1 = ⟨.finish, .point c.size, ""⟩ ∧ c.next.2.rest = [] := by
  rw [next_eq_fetch h] at finish ⊢
  have scanned : Token.scan c.position c.rest = _ := Token.scan_of_finish finish
  exact ⟨congrArg Prod.fst scanned, congrArg Prod.snd scanned⟩

theorem waiting_skip (n : Nat) : (c.skip n).waiting = none := by
  induction n generalizing c with
  | zero => exact h
  | succ n ih => exact ih (waiting_next h)

theorem size_skip (n : Nat) : (c.skip n).size = c.size := by
  induction n generalizing c with
  | zero => rfl
  | succ n ih => rw [skip, ih (waiting_next h), size_next h]

/-- No more tokens come after the end. -/
theorem ahead_next : c.next.2.ahead = c.ahead.tail := by
  cases finish : c.next.1.isFinish with
  | false => rw [ahead_of_more finish, List.tail_cons]
  | true =>
    rw [ahead_of_finish finish, List.tail_nil, ahead_eq_nil_iff, next_eq_fetch (waiting_next h),
      fetch, (next_of_finish h finish).2]
    rfl

theorem ahead_skip (n : Nat) : (c.skip n).ahead = c.ahead.drop n := by
  induction n generalizing c with
  | zero => rfl
  | succ n ih => rw [skip, ih (waiting_next h), ahead_next h, List.drop_tail]

end NoneWaiting

/-! ## The end of a text -/

/-- Nothing more comes after the end. -/
def Settles (c : Cursor) : Prop :=
  ∀ n, (c.skip n).ahead = c.ahead.drop n

/-- Nothing more comes after the end of a text, wherever in it a cursor stands. -/
theorem settles_past {c last : Cursor} {k : Nat} (waiting : c.waiting = none)
    (h : c.Past k last) : last.Settles := by
  intro n
  cases n with
  | zero => rfl
  | succ n =>
    rw [h.skip_eq, h.ahead_eq, ahead_skip waiting, ahead_skip waiting, List.drop_drop,
      Nat.add_assoc]

/-- The token at a place is the one there in the list of those ahead, unless it is the end. -/
theorem Settles.getElem? {c : Cursor} (h : c.Settles) (n : Nat) :
    c.ahead[n]? = if (c.nth n).isFinish then none else some (c.nth n) := by
  rw [← List.head?_drop, ← h n]
  split
  · rename_i finish
    rw [ahead_of_finish finish, List.head?_nil]
  · rename_i more
    rw [Bool.not_eq_true] at more
    rw [ahead_of_more more, List.head?_cons]
    rfl

theorem Settles.getElem?_of_kind {c : Cursor} (h : c.Settles) {n : Nat} {kind : Token.Kind}
    (hk : (c.nth n).kind = kind) (more : kind.isFinish = false) :
    c.ahead[n]? = some (c.nth n) := by
  rw [h.getElem?, Token.isFinish, hk, more]
  rfl

/-- What holds of the tokens of a text and of every mark of an end holds of all that is handed
out. -/
theorem all_ofString {source : String} {Q : Token → Prop} (h : ∀ token ∈ tokens source, Q token)
    (finish : ∀ token : Token, token.isFinish = true → Q token) : (ofString source).All Q := by
  intro k
  by_cases last : ((ofString source).nth k).isFinish = true
  · exact finish _ last
  · have found := (settles_past rfl (.zero (ofString source))).getElem? k
    rw [if_neg last] at found
    exact h _ (List.mem_of_getElem? found)

/-- The end of the text ahead is at a byte. -/
def EndsAt (size : Nat) (c : Cursor) : Prop :=
  ∀ k, (c.nth k).isFinish = true → (c.nth k).span = .point size

theorem endsAt_size {c : Cursor} (h : c.waiting = none) : c.EndsAt c.size := by
  intro k finish
  have last := (next_of_finish (waiting_skip h k) finish).1
  rw [size_skip h] at last
  exact congrArg Token.span last

namespace EndsAt

variable {size k : Nat} {c last : Cursor}

theorem past (h : c.EndsAt size) (hp : c.Past k last) : last.EndsAt size := by
  intro j
  rw [hp.nth_eq]
  exact h (k + j)

theorem next (h : c.EndsAt size) : c.next.2.EndsAt size :=
  h.past (.next c)

theorem span (h : c.EndsAt size) : c.next.1.span = spanAt size c.ahead := by
  cases finish : c.next.1.isFinish with
  | false => rw [ahead_of_more finish]; rfl
  | true => rw [ahead_of_finish finish]; exact h 0 finish

end EndsAt

/-- The span of a token, from what is ahead after those before it. -/
theorem span_nth {c : Cursor} (h : c.waiting = none) (n : Nat) :
    (c.nth n).span = spanAt c.size (c.ahead.drop n) := by
  rw [← ahead_skip h]
  exact ((endsAt_size h).past (.inl rfl)).span

/-- The tokens ahead of a cursor stand one after the other, from where it is. -/
theorem ordered_ahead {c : Cursor} (h : c.waiting = none) :
    Ordered c.size c.ahead ∧ ∀ token ∈ c.ahead, c.position ≤ token.span.start := by
  induction c using ahead.induct with
  | case1 c finish =>
    rw [ahead_of_finish finish]
    exact ⟨⟨.nil, List.forall_mem_nil _⟩, List.forall_mem_nil _⟩
  | case2 c more ih =>
    have finish : c.next.1.isFinish = false := by simpa using more
    obtain ⟨ordered, after⟩ := ih (waiting_next h)
    rw [size_next h] at ordered
    rw [position_next h] at after
    have start : c.position ≤ c.next.1.span.start := by
      rw [next_eq_fetch h]
      exact Token.le_start_scan _ _
    have some : c.next.1.span.start < c.next.1.span.stop := by
      rw [next_eq_fetch h] at finish ⊢
      exact Token.start_lt_stop_scan finish
    have stop : c.next.1.span.stop ≤ c.size := by
      rw [← position_next h, ← size_next h]
      exact Nat.le_add_right _ _
    rw [ahead_of_more finish]
    refine ⟨⟨List.pairwise_cons.mpr ⟨after, ordered.apart⟩,
      List.forall_mem_cons.mpr ⟨⟨some, stop⟩, ordered.inside⟩⟩,
      List.forall_mem_cons.mpr ⟨start, fun token ht => ?_⟩⟩
    exact Nat.le_trans (Nat.le_trans start (Nat.le_of_lt some)) (after token ht)

/-- At the start of a text all of its bytes are ahead. -/
theorem size_ofString (source : String) : (ofString source).size = source.utf8ByteSize := by
  rw [size, ofString, Nat.zero_add, Text.width_toList]

/-- A cursor stands somewhere in a text, maybe after looking at a token. -/
def StandsIn (source : String) (c : Cursor) : Prop :=
  ∃ k, (ofString source).Past k c

namespace StandsIn

variable {source : String} {c last : Cursor} {k : Nat}

theorem start (source : String) : (ofString source).StandsIn source :=
  ⟨0, .zero _⟩

theorem past (h : c.StandsIn source) (hp : c.Past k last) : last.StandsIn source := by
  obtain ⟨j, taken⟩ := h
  exact ⟨j + k, taken.trans hp⟩

theorem next (h : c.StandsIn source) : c.next.2.StandsIn source :=
  h.past (.next c)

theorem peek (h : c.StandsIn source) : c.peek.2.StandsIn source :=
  h.past (.peek c)

/-- What is ahead are the last tokens of the text. -/
theorem suffix (h : c.StandsIn source) : c.ahead <:+ tokens source := by
  obtain ⟨k, taken⟩ := h
  rw [taken.ahead_eq, ahead_skip rfl]
  exact List.drop_suffix k (tokens source)

theorem span (h : c.StandsIn source) : c.next.1.span = spanAt source.utf8ByteSize c.ahead := by
  obtain ⟨k, taken⟩ := h
  rw [← size_ofString]
  exact ((endsAt_size rfl).past taken).span

end StandsIn

end Cursor

end Formula
