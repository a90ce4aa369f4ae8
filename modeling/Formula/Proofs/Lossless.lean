import Formula.Proofs.Pinpoint
import Formula.Proofs.Slice

/-!
# Nothing of a text is lost

The tokens of a text stand in it one after the other, with white space between them and maybe at
the two ends, and are what is found at their spans (`Laid`). A cursor hands each of them out
once and counts it, then the end of the text again and again (`lossless`).
-/

namespace Formula

open Text (isBlank width slice? slice?_eq_some_iff)

/-- A character of two texts in a row belongs to the first or to the second. -/
theorem Text.mem_of_append {a b front after : List Char} {c : Char}
    (h : a ++ b = front ++ c :: after) :
    (∃ own, a = front ++ c :: own) ∨ ∃ own, front = a ++ own ∧ b = own ++ c :: after := by
  rcases List.append_eq_append_iff.mp h with ⟨own, rfl, rest⟩ | ⟨own, rfl, rest⟩
  · exact .inr ⟨own, rfl, rest⟩
  · cases own with
    | nil => exact .inr ⟨[], by simp, rest.symm⟩
    | cons first own =>
      obtain ⟨rfl, -⟩ := List.cons.inj rest
      exact .inl ⟨own, rfl⟩

/-- Tokens stand one after the other in a text that starts at a position, with white space
between them. -/
inductive Laid : Nat → List Token → List Char → Prop where
  | nil {position : Nat} {blanks : List Char} :
      (∀ c ∈ blanks, isBlank c = true) → Laid position [] blanks
  | cons {position : Nat} {token : Token} {rest : List Token} {blanks text : List Char} :
      (∀ c ∈ blanks, isBlank c = true) →
      token.span = ⟨position + width blanks, position + width blanks + width token.text.toList⟩ →
      Laid token.span.stop rest text →
      Laid position (token :: rest) (blanks ++ (token.text.toList ++ text))

/-- What is scanned comes after white space and before what is left. -/
theorem Token.scan_parts {position : Nat} {text : List Char}
    (h : (scan position text).1.isFinish = false) :
    ∃ blanks, (∀ c ∈ blanks, isBlank c = true) ∧
      text = blanks ++ ((scan position text).1.text.toList ++ (scan position text).2) ∧
      (scan position text).1.span = ⟨position + width blanks,
        position + width blanks + width (scan position text).1.text.toList⟩ := by
  refine ⟨text.takeWhile isBlank, List.all_eq_true.mp List.all_takeWhile, ?_⟩
  have whole := List.takeWhile_append_dropWhile (p := isBlank) (l := text)
  simp only [scan] at h ⊢
  split
  · rename_i found
    simp [found, isFinish, Kind.isFinish] at h
  · rename_i c rest found
    rw [found] at whole
    simp only [String.toList_ofList, take_append, whole, and_self]

/-- Only white space is left before the end. -/
theorem Token.blank_of_finish {position : Nat} {text : List Char}
    (h : (scan position text).1.isFinish = true) : ∀ c ∈ text, isBlank c = true := by
  have whole := List.takeWhile_append_dropWhile (p := isBlank) (l := text)
  simp only [scan] at h
  split at h
  · rename_i found
    rw [found, List.append_nil] at whole
    rw [← whole]
    exact List.all_eq_true.mp List.all_takeWhile
  · rename_i c rest found
    simp [isFinish, isFinish_take] at h

theorem Cursor.laid_ahead {c : Cursor} (h : c.waiting = none) :
    Laid c.position c.ahead c.rest := by
  induction c using ahead.induct with
  | case1 c finish =>
    rw [ahead_of_finish finish]
    rw [next_eq_fetch h] at finish
    exact .nil (Token.blank_of_finish finish)
  | case2 c more ih =>
    have finish : c.next.1.isFinish = false := by simpa using more
    have later := ih (waiting_next h)
    rw [position_next h] at later
    rw [ahead_of_more finish]
    rw [next_eq_fetch h] at finish later ⊢
    obtain ⟨blanks, hb, text, span⟩ := Token.scan_parts finish
    rw [text]
    exact .cons hb span later

theorem laid_tokens (source : String) : Laid 0 (tokens source) source.toList :=
  Cursor.laid_ahead (c := .ofString source) rfl

namespace Laid

variable {position : Nat} {ts : List Token} {text : List Char}

/-- A token is what stands at its span. -/
theorem slice?_eq {before : List Char} (h : Laid position ts text)
    (start : width before = position) :
    ∀ token ∈ ts, slice? (before ++ text) token.span = some token.text.toList := by
  induction h generalizing before with
  | nil => exact List.forall_mem_nil _
  | @cons _ token rest blanks text hb span later ih =>
    subst start
    have found : slice? (before ++ (blanks ++ (token.text.toList ++ text))) token.span =
        some token.text.toList := by
      refine slice?_eq_some_iff.mpr ⟨before ++ blanks, text, ?_, ?_, ?_⟩
      · rw [List.append_assoc]
      · rw [span, Text.width_append]
      · rw [span, Text.width_append]
    refine List.forall_mem_cons.mpr ⟨found, ?_⟩
    have stop : width (before ++ (blanks ++ token.text.toList)) = token.span.stop := by
      rw [span, Text.width_append, Text.width_append, Nat.add_assoc]
    have others := ih stop
    rwa [List.append_assoc, List.append_assoc] at others

/-- A character is white space or belongs to a token. -/
theorem blank_or_inside {front after : List Char} {c : Char} (h : Laid position ts text)
    (split : text = front ++ c :: after) :
    isBlank c = true ∨ ∃ token ∈ ts, token.span.start ≤ position + width front ∧
      position + width front + c.utf8Size ≤ token.span.stop := by
  induction h generalizing front with
  | nil hb =>
    subst split
    exact .inl (hb c (by simp))
  | @cons position token rest blanks text hb span later ih =>
    rcases Text.mem_of_append split with ⟨_, own⟩ | ⟨own, rfl, past⟩
    · exact .inl (hb c (by simp [own]))
    rcases Text.mem_of_append past with ⟨_, word⟩ | ⟨after, rfl, behind⟩
    · refine .inr ⟨token, List.mem_cons_self, ?_⟩
      rw [span, word]
      simp only [Text.width_append, Text.width_cons]
      omega
    · have inside := ih behind
      rw [span] at inside
      simp only [Text.width_append, ← Nat.add_assoc]
      exact inside.imp_right fun ⟨t, ht, bounds⟩ => ⟨t, List.mem_cons_of_mem _ ht, bounds⟩

/-- One token that is spelled like the whole text stands at its start. -/
theorem eq_of_text {token : Token} (h : Laid position [token] text)
    (whole : token.text.toList = text) :
    token.span = ⟨position, position + width text⟩ := by
  cases h with
  | @cons _ _ _ blanks tail _ span _ =>
    have sizes := congrArg width whole
    simp only [Text.width_append] at sizes
    have before : width blanks = 0 := by omega
    rw [span, before, Nat.add_zero, ← whole]

end Laid

/-- The tokens of a text are what stands at their spans. -/
theorem slice?_tokens (source : String) :
    ∀ token ∈ tokens source, slice? source.toList token.span = some token.text.toList :=
  (laid_tokens source).slice?_eq (rfl : width [] = 0)

/-- A token of a text is what a text is that is spelled like it. -/
theorem tokens_text {source : String} {token : Token} (h : token ∈ tokens source) :
    tokens token.text = [{ token with span := ⟨0, token.text.utf8ByteSize⟩ }] := by
  have spelled : ∀ t ∈ [token], t.Spelled :=
    List.forall_mem_singleton.mpr (Cursor.spelled_ahead (c := .ofString source) rfl token h)
  have spaced : Spaced [token] token.text.toList :=
    @Spaced.last [] token (List.forall_mem_nil _)
  have same := map_word_tokens spelled spaced
  obtain ⟨t, alone, same⟩ := List.map_eq_singleton_iff.mp same
  obtain ⟨kind, text⟩ := Token.word_eq_iff.mp same
  have laid := laid_tokens token.text
  rw [alone] at laid
  have span := laid.eq_of_text (by rw [text])
  rw [Nat.zero_add, Text.width_toList] at span
  obtain ⟨_, _, _⟩ := t
  obtain rfl : _ = token.kind := kind
  obtain rfl : _ = token.text := text
  obtain rfl : _ = Span.mk _ _ := span
  exact alone

theorem Token.Spelled.visible {token : Token} (h : token.Spelled) :
    ∃ c more, token.text.toList = c :: more ∧ isBlank c = false := by
  obtain ⟨c, rest, visible, -, text⟩ := h
  obtain ⟨more, parts, -⟩ := take_again c rest Text.gap_nil
  exact ⟨c, more, by rw [text, String.toList_ofList, parts], visible⟩

namespace Cursor

/-- The end of a text is not counted, however often it is handed out. -/
theorem scanned_skip {c : Cursor} (h : c.waiting = none) (k : Nat) :
    (c.skip k).scanned = c.scanned + min k c.ahead.length := by
  induction k generalizing c with
  | zero => rw [Nat.zero_min]; rfl
  | succ k ih =>
    have counted : c.next.2.scanned = if c.next.1.isFinish then c.scanned else c.scanned + 1 := by
      rw [next_eq_fetch h]
      rfl
    rw [skip, ih (waiting_next h), counted, ahead_next h, List.length_tail]
    cases finish : c.next.1.isFinish with
    | true =>
      rw [if_pos rfl, ahead_of_finish finish]
      simp
    | false =>
      rw [if_neg Bool.false_ne_true, ahead_of_more finish, List.length_cons]
      omega

/-- A cursor at the start of a text hands out its tokens, then the end of it for ever. -/
theorem nth_ofString (source : String) (k : Nat) :
    (ofString source).nth k =
      (tokens source)[k]?.getD ⟨.finish, .point source.utf8ByteSize, ""⟩ := by
  have found : (tokens source)[k]? = _ := (settles_past rfl (.zero (ofString source))).getElem? k
  rw [found]
  split
  · rename_i finish
    have last := (next_of_finish (waiting_skip rfl k) finish).1
    rw [size_skip rfl, size_ofString] at last
    exact last
  · rfl

end Cursor

/-- How the tokens of a text relate to it. -/
structure Lossless (source : String) : Prop where
  /-- They are handed out one by one, and then the end of the text for ever. -/
  handed (k : Nat) : (Cursor.ofString source).nth k =
    (tokens source)[k]?.getD ⟨.finish, .point source.utf8ByteSize, ""⟩
  /-- None of them is the end of the text. -/
  more : ∀ token ∈ tokens source, token.isFinish = false
  /-- Each of them is counted once, and the end of the text is not. -/
  counted (k : Nat) : ((Cursor.ofString source).skip k).scanned = min k (tokens source).length
  /-- None of them is empty, and they stand one after the other. -/
  ordered : Ordered source.utf8ByteSize (tokens source)
  /-- They are what the text holds at their spans, which do not cut a character. -/
  held : ∀ token ∈ tokens source, slice? source.toList token.span = some token.text.toList
  /-- Every character is white space or belongs to one of them. -/
  covered (before after : List Char) (c : Char) : source.toList = before ++ c :: after →
    isBlank c = true ∨ ∃ token ∈ tokens source,
      token.span.start ≤ width before ∧ width before + c.utf8Size ≤ token.span.stop
  /-- None of them starts with white space. -/
  visible : ∀ token ∈ tokens source, ∃ c more, token.text.toList = c :: more ∧ isBlank c = false
  /-- Each of them is the only token of its own text, and of the same kind there. -/
  alone : ∀ token ∈ tokens source,
    tokens token.text = [{ token with span := ⟨0, token.text.utf8ByteSize⟩ }]

/-- Every text is split into tokens without loss. -/
theorem lossless (source : String) : Lossless source := by
  have spelled : ∀ token ∈ tokens source, token.Spelled :=
    Cursor.spelled_ahead (c := .ofString source) rfl
  exact {
    handed := Cursor.nth_ofString source
    more := fun token ht => (spelled token ht).isFinish_eq
    counted := fun k => by
      rw [Cursor.scanned_skip rfl]
      exact Nat.zero_add _
    ordered := ordered_tokens source
    held := slice?_tokens source
    covered := fun before after c split => by
      simpa using (laid_tokens source).blank_or_inside split
    visible := fun token ht => (spelled token ht).visible
    alone := fun token ht => tokens_text ht }

end Formula
