import Formula.Proofs.Lossless
import Formula.Proofs.Shift
import Formula.Proofs.Taken

/-!
# Texts cut after a token

How a token is read does not depend on what comes after the characters that are left (`Steady`): it
ends where it does because of what comes next, and ends there too if nothing comes next. So what
stands in a text from the start of a token to the end of one has the tokens from the one to the
other, and no others (`exists_slice`).
-/

namespace Formula

open Text (isBlank width slice? slice?_eq_some_iff)

namespace Text

/-- If a text is left that ends in some way, it was taken off one that ends so. -/
theorem exists_front {text back : List Char} (left : List Char) (h : left ++ back <:+ text) :
    ∃ front, text = front ++ back := by
  obtain ⟨taken, rfl⟩ := h
  exact ⟨taken ++ left, (List.append_assoc taken left back).symm⟩

variable {α : Type} {f : List Char → α × List Char}

/-- What is taken off a text does not depend on what comes after the characters that are left. -/
def Steady (f : List Char → α × List Char) : Prop :=
  ∀ ⦃text back left : List Char⦄ ⦃a : α⦄,
    f (text ++ back) = (a, left ++ back) → f text = (a, left)

/-- If nothing is lost, and `f` gives for no characters what it gives for none that it takes, it
matters only what happens after a first character. -/
theorem Steady.of_cons (word : α → List Char)
    (whole : ∀ text, word (f text).1 ++ (f text).2 = text)
    (none : ∀ text, word (f text).1 = [] → (f text).1 = (f []).1)
    (cons : ∀ (c : Char) (text back left : List Char) (a : α),
      (∀ ⦃left a⦄, f (text ++ back) = (a, left ++ back) → f text = (a, left)) →
      f (c :: (text ++ back)) = (a, left ++ back) → f (c :: text) = (a, left)) : Steady f := by
  intro text back left a h
  induction text generalizing left a with
  | nil =>
    have parts := whole back
    have same := none back
    rw [List.nil_append] at h
    rw [h, ← List.append_assoc, List.append_left_eq_self] at parts
    obtain ⟨taken, rfl⟩ := List.append_eq_nil_iff.mp parts
    rw [h] at same
    exact Prod.ext (same taken).symm (List.append_eq_nil_iff.mp (whole [])).2
  | cons c text ih => exact cons c text back left a ih h

theorem steady_span (p : Char → Bool) :
    Steady fun text => (text.takeWhile p, text.dropWhile p) := by
  refine .of_cons id (fun _ => List.takeWhile_append_dropWhile) (fun _ h => h) ?_
  intro c text back left a ih h
  simp only [List.takeWhile_cons, List.dropWhile_cons] at h ⊢
  split at h
  · rename_i part
    obtain ⟨rfl, rest⟩ := Prod.mk.inj h
    obtain ⟨taken, dropped⟩ := Prod.mk.inj (ih (Prod.ext rfl rest))
    rw [if_pos part, if_pos part, taken, dropped]
  · rename_i stop
    obtain ⟨rfl, rest⟩ := Prod.mk.inj h
    rw [← List.cons_append] at rest
    rw [if_neg stop, if_neg stop, List.append_cancel_right rest]

end Text

namespace Number

open Text (Steady exists_front steady_span)

/-- Whether a sign is taken depends on one character. -/
theorem takeSign_cons (c : Char) :
    (∀ rest, takeSign (c :: rest) = (some c, rest)) ∨
      ∀ rest, takeSign (c :: rest) = (none, c :: rest) := by
  by_cases sign : c = '+' ∨ c = '-'
  · rcases sign with rfl | rfl <;> exact .inl fun _ => rfl
  · refine .inr fun rest => ?_
    unfold takeSign
    split <;> simp_all

theorem steady_takeSign : Steady takeSign := by
  refine .of_cons (·.toList) takeSign_text (fun text h => Option.toList_eq_nil_iff.mp h) ?_
  intro c text back left a _ h
  rcases takeSign_cons c with sign | other
  · rw [sign] at h ⊢
    obtain ⟨rfl, rest⟩ := Prod.mk.inj h
    rw [List.append_cancel_right rest]
  · rw [other, ← List.cons_append] at h
    obtain ⟨rfl, rest⟩ := Prod.mk.inj h
    rw [other, List.append_cancel_right rest]

theorem Exponent.steady_scan : Steady scan := by
  refine .of_cons (·.elim [] text) text_scan (fun text h => ?_) ?_
  · cases found : (scan text).1 with
    | none => rfl
    | some e => rw [found] at h; cases h
  · intro c text back left a _ h
    simp only [scan] at h ⊢
    split at h
    · rename_i marker
      obtain ⟨rfl, rest⟩ := Prod.mk.inj h
      obtain ⟨digits, cut⟩ := exists_front _ (rest ▸ List.dropWhile_suffix Char.isDigit)
      have sign := steady_takeSign (Prod.ext rfl cut)
      rw [cut] at rest ⊢
      obtain ⟨taken, dropped⟩ := Prod.mk.inj (steady_span Char.isDigit (Prod.ext rfl rest))
      rw [if_pos marker, sign, taken, dropped]
    · rename_i other
      rw [← List.cons_append] at h
      obtain ⟨rfl, rest⟩ := Prod.mk.inj h
      rw [if_neg other, List.append_cancel_right rest]

/-- Whether a point is taken depends on one character. -/
theorem Numeral.takeFraction_cons (c : Char) :
    (∀ rest, takeFraction (c :: rest) =
      (some (rest.takeWhile Char.isDigit), rest.dropWhile Char.isDigit)) ∨
      ∀ rest, takeFraction (c :: rest) = (none, c :: rest) := by
  by_cases point : c = '.'
  · subst point
    exact .inl fun _ => rfl
  · refine .inr fun rest => ?_
    unfold takeFraction
    split <;> simp_all

theorem Numeral.steady_takeFraction : Steady takeFraction := by
  refine .of_cons (·.elim [] ('.' :: ·)) text_takeFraction (fun text h => ?_) ?_
  · cases found : (takeFraction text).1 with
    | none => rfl
    | some digits => rw [found] at h; cases h
  · intro c text back left a _ h
    rcases takeFraction_cons c with point | other
    · rw [point] at h ⊢
      obtain ⟨rfl, rest⟩ := Prod.mk.inj h
      obtain ⟨taken, dropped⟩ := Prod.mk.inj (steady_span Char.isDigit (Prod.ext rfl rest))
      rw [taken, dropped]
    · rw [other, ← List.cons_append] at h
      obtain ⟨rfl, rest⟩ := Prod.mk.inj h
      rw [other, List.append_cancel_right rest]

theorem Numeral.steady_scan : Steady scan := by
  intro text back left n h
  simp only [scan] at h ⊢
  obtain ⟨rest, cut⟩ : ∃ rest,
      (takeFraction ((text ++ back).dropWhile Char.isDigit)).2 = rest ++ back := by
    refine exists_front left ?_
    split at h
    · exact (Prod.mk.inj h).2 ▸ List.suffix_rfl
    · exact (Prod.mk.inj h).2 ▸ ⟨_, Exponent.text_scan _⟩
  obtain ⟨behind, cut'⟩ : ∃ behind, (text ++ back).dropWhile Char.isDigit = behind ++ back := by
    refine exists_front rest ?_
    rw [← cut]
    exact ⟨_, text_takeFraction _⟩
  obtain ⟨whole, dropped⟩ := Prod.mk.inj (steady_span Char.isDigit (Prod.ext rfl cut'))
  rw [cut'] at cut h
  have fraction := steady_takeFraction (Prod.ext rfl cut)
  rw [whole, dropped, fraction]
  split at h
  · rename_i empty
    obtain ⟨rfl, left⟩ := Prod.mk.inj h
    rw [cut] at left
    rw [if_pos empty, List.append_cancel_right left]
  · rename_i some
    obtain ⟨rfl, left⟩ := Prod.mk.inj h
    rw [cut] at left ⊢
    rw [if_neg some, Exponent.steady_scan (Prod.ext rfl left)]

end Number

namespace Token

open Text (exists_front)
open Number (Numeral)

/-- A token is taken off again where the text is cut somewhere after it. -/
theorem take_cut {c : Char} {text back left : List Char}
    (h : (take c (text ++ back)).rest = left ++ back) :
    take c text = { take c (text ++ back) with rest := left } := by
  simp only [take] at h ⊢
  split at h
  · rename_i numeral
    rw [← List.cons_append] at h
    have scanned := Numeral.steady_scan (Prod.ext rfl h)
    simp only [if_pos numeral, scanned, List.cons_append]
  · rename_i numeral
    split at h
    · rename_i name
      obtain ⟨taken, dropped⟩ := Prod.mk.inj (Text.steady_span isNamePart (Prod.ext rfl h))
      simp only [if_neg numeral, if_pos name, taken, dropped]
    · rename_i other
      simp only [if_neg numeral, if_neg other, List.append_cancel_right h]

/-- White space before a token only counts for where it stands. -/
theorem scan_blanks {blanks : List Char} (hb : ∀ c ∈ blanks, isBlank c = true) (position : Nat)
    (text : List Char) : scan position (blanks ++ text) = scan (position + width blanks) text := by
  simp only [scan, List.takeWhile_append_of_pos hb, List.dropWhile_append_of_pos hb,
    Text.width_append, Nat.add_assoc]

/-- A token is scanned again where the text is cut somewhere after it. -/
theorem scan_cut {position : Nat} {text back left : List Char} {token : Token}
    (h : scan position (text ++ back) = (token, left ++ back)) (more : token.isFinish = false) :
    scan position text = (token, left) := by
  simp only [scan] at h ⊢
  split at h
  · obtain ⟨rfl, -⟩ := Prod.mk.inj h
    cases more
  · rename_i c rest found
    obtain ⟨rfl, behind⟩ := Prod.mk.inj h
    obtain ⟨word, parts⟩ : ∃ word, rest = word ++ back := by
      have parts := take_append c rest
      rw [behind] at parts
      cases taken : (take c rest).text with
      | nil => exact absurd taken (take_ne_nil c rest)
      | cons first word =>
        rw [taken, List.cons_append] at parts
        exact exists_front left ⟨word, (List.cons.inj parts).2⟩
    subst parts
    rw [← List.cons_append] at found
    obtain ⟨blanks, dropped⟩ := Prod.mk.inj (Text.steady_span isBlank (Prod.ext rfl found))
    simp only [blanks, dropped, take_cut behind]

end Token

namespace Cursor

/-- The second cursor is in front of the same characters as the first up to those that are left
at the end, and counts from a byte on. -/
structure Cuts (bytes : Nat) (back : List Char) (c c' : Cursor) : Prop where
  waiting : c.waiting = none
  waiting' : c'.waiting = none
  rest : c.rest = c'.rest ++ back
  position : c.position = bytes + c'.position

namespace Cuts

variable {bytes n : Nat} {back : List Char} {c c' : Cursor}

/-- A token after which the text is cut somewhere is the next one of both. -/
theorem next (h : Cuts bytes back c c') (more : c.next.1.isFinish = false)
    (left : back <:+ c.next.2.rest) :
    c.next.1 = c'.next.1.shift bytes ∧ Cuts bytes back c.next.2 c'.next.2 := by
  obtain ⟨left, cut⟩ := left
  have scanned : Token.scan c.position (c'.rest ++ back) = (c.next.1, left ++ back) := by
    rw [cut, next_eq_fetch h.waiting, ← h.rest]
    rfl
  have scanned := Token.scan_cut scanned more
  rw [h.position, Token.scan_add] at scanned
  obtain ⟨first, rest⟩ := Prod.mk.inj scanned
  have first : c.next.1 = c'.next.1.shift bytes := by
    rw [← first, next_eq_fetch h.waiting']
    rfl
  refine ⟨first, waiting_next h.waiting, waiting_next h.waiting', ?_, ?_⟩
  · rw [← cut, ← rest, next_eq_fetch h.waiting']
    rfl
  · rw [position_next h.waiting, position_next h.waiting', first]
    rfl

/-- Where the text is cut after some tokens, these are all that are left of it. -/
theorem ahead (h : Cuts bytes back c c') (taken : n ≤ c.ahead.length)
    (left : (c.skip n).rest = back) : c'.ahead.map (Token.shift bytes) = c.ahead.take n := by
  induction n generalizing c c' with
  | zero =>
    have none : c'.rest = [] := by
      rw [skip, h.rest, List.append_left_eq_self] at left
      exact left
    have finish : c'.next.1.isFinish = true := by
      rw [next_eq_fetch h.waiting', fetch, none]
      rfl
    rw [ahead_of_finish finish, List.take_zero, List.map_nil]
  | succ n ih =>
    have more : c.next.1.isFinish = false := by
      cases finish : c.next.1.isFinish with
      | false => rfl
      | true => rw [ahead_of_finish finish] at taken; cases taken
    have behind : back <:+ c.next.2.rest := left ▸ suffix_skip (waiting_next h.waiting) n
    obtain ⟨first, next⟩ := h.next more behind
    have more' : c'.next.1.isFinish = false := by rwa [first] at more
    rw [ahead_of_more more] at taken ⊢
    rw [ahead_of_more more', List.map_cons, List.take_succ_cons, first,
      ih next (Nat.le_of_succ_le_succ taken) left]

end Cuts

/-- White space before the next token may be left out. -/
theorem next_blanks {c : Cursor} (h : c.waiting = none) {blanks text : List Char}
    (hb : ∀ c ∈ blanks, isBlank c = true) (rest : c.rest = blanks ++ text) :
    { c with rest := text, position := c.position + width blanks }.next = c.next := by
  rw [next_eq_fetch h, next_eq_fetch (by exact h), fetch, fetch, rest, Token.scan_blanks hb]

end Cursor

/-! ## Stretches of tokens -/

namespace Cursor

variable {c : Cursor} {first last : Token} {part rest after : List Token}

/-- The next token stands after white space, and from its start on are the characters of the
tokens up to any later one. -/
theorem exists_cut (h : c.waiting = none) (ahead : c.ahead = first :: rest) (n : Nat) :
    ∃ blanks text, (∀ c ∈ blanks, isBlank c = true) ∧
      c.rest = blanks ++ (text ++ (c.skip (n + 1)).rest) ∧
      first.span.start = c.position + width blanks := by
  have more : c.next.1.isFinish = false := by
    cases finish : c.next.1.isFinish with
    | false => rfl
    | true => rw [ahead_of_finish finish] at ahead; cases ahead
  obtain ⟨rfl, -⟩ := next_of_ahead ahead
  have behind : (c.skip (n + 1)).rest <:+ c.next.2.rest := suffix_skip (waiting_next h) n
  rw [next_eq_fetch h] at more behind ⊢
  obtain ⟨blanks, hb, parts, span⟩ := Token.scan_parts more
  obtain ⟨text, cut⟩ := behind.trans (List.suffix_append c.fetch.1.text.toList _)
  exact ⟨blanks, text, hb, by rw [cut]; exact parts, congrArg Span.start span⟩

/-- After some tokens a cursor stands at the end of the last of them. -/
theorem position_skip (h : c.waiting = none) (ahead : c.ahead = part ++ after)
    (hl : last ∈ part.getLast?) : (c.skip part.length).position = last.span.stop := by
  obtain ⟨init, rfl⟩ := List.getLast?_eq_some_iff.mp hl
  rw [List.append_assoc, List.singleton_append] at ahead
  rw [List.length_append, List.length_singleton, ← next_skip, position_next (waiting_skip h _)]
  exact congrArg (fun token => token.span.stop) (nth_append ahead)

/-- The characters from the start of the next token to the end of a later one have the tokens from
the one to the other. -/
theorem tokens_cut (h : c.waiting = none) {n bytes : Nat} {blanks text : List Char}
    (taken : n + 1 ≤ c.ahead.length) (hb : ∀ c ∈ blanks, isBlank c = true)
    (parts : c.rest = blanks ++ (text ++ (c.skip (n + 1)).rest))
    (start : c.position + width blanks = bytes) :
    (tokens (.ofList text)).map (Token.shift bytes) = c.ahead.take (n + 1) := by
  -- the cursor that stands right in front of the token
  let close : Cursor :=
    { c with rest := text ++ (c.skip (n + 1)).rest, position := c.position + width blanks }
  have same : close.next = c.next := next_blanks h hb parts
  have ahead : close.ahead = c.ahead := by
    rw [Cursor.ahead, same, ← Cursor.ahead]
  have skip : close.skip (n + 1) = c.skip (n + 1) := by
    rw [Cursor.skip, same, Cursor.skip]
  have cuts : Cuts bytes (c.skip (n + 1)).rest close (.ofString (.ofList text)) := by
    refine ⟨h, rfl, ?_, start⟩
    rw [ofString, String.toList_ofList]
  rw [tokens, cuts.ahead (ahead ▸ taken) (by rw [skip]), ahead]

end Cursor

/-- What stands in a text from the start of a token to the end of one has these tokens. -/
theorem exists_slice {source : String} {before part after : List Token} {a : Span}
    (h : tokens source = before ++ (part ++ after)) (start : startOf part = some a.start)
    (stop : stopOf part = some a.stop) :
    ∃ text, slice? source.toList a = some text ∧
      (tokens (.ofList text)).map (Token.shift a.start) = part := by
  obtain ⟨first, hf, first_eq⟩ := Option.map_eq_some_iff.mp start
  obtain ⟨last, hl, last_eq⟩ := Option.map_eq_some_iff.mp stop
  obtain ⟨rest, rfl⟩ := List.head?_eq_some_iff.mp hf
  obtain ⟨front, behind, whole, tails⟩ := Cursor.tails_skip source before.length
  generalize hc : (Cursor.ofString source).skip before.length = c at tails
  have waiting : c.waiting = none := tails.waiting
  have ahead : c.ahead = first :: rest ++ after := hc ▸ Cursor.ahead_skip_append h
  obtain ⟨blanks, text, hb, parts, begins⟩ := Cursor.exists_cut waiting ahead rest.length
  refine ⟨text, slice?_eq_some_iff.mpr
    ⟨front ++ blanks, (c.skip (rest.length + 1)).rest, ?_, ?_, ?_⟩, ?_⟩
  · have left : c.rest = behind := tails.rest.trans String.toList_ofList
    rw [whole, ← left, parts, List.append_assoc]
  · have position : c.position = width front := tails.position
    rw [← first_eq, begins, position, Text.width_append]
  · have ends : (c.skip (first :: rest).length).position = _ :=
      Cursor.position_skip waiting ahead hl
    have size : (c.skip (rest.length + 1)).size = c.size := Cursor.size_skip waiting _
    have position : c.position = width front := tails.position
    rw [List.length_cons, last_eq] at ends
    rw [Cursor.size, Cursor.size, ends, parts, position] at size
    simp only [Text.width_append] at size ⊢
    omega
  · rw [Cursor.tokens_cut waiting (by simp [ahead]) hb parts (begins.symm.trans first_eq), ahead]
    exact List.take_left' rfl

end Formula
