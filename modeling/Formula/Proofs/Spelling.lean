import Formula.Proofs.Place

/-!
# Tokens taken again

A token that was taken off a text is taken off again where its characters stand before white
space or the end of a text (`Token.take_again`): no token goes on over white space, and none is
what it is because of what came after it. So a text in which words are spelled out with white
space between them has these words for its tokens, whatever the white space is
(`map_word_tokens`), and for every sequence of words there is such a text (`spaced_spell`).
-/

namespace Formula

open Text (isBlank)

namespace Text

/-- A text goes on with white space, or not at all. -/
def Gap (text : List Char) : Prop :=
  ∀ c ∈ text.head?, isBlank c = true

theorem gap_nil : Gap [] := by
  simp [Gap]

theorem gap_cons {c : Char} {text : List Char} : Gap (c :: text) ↔ isBlank c = true := by
  simp [Gap]

/-- The visible characters of ASCII are not blank. -/
theorem isBlank_of_ascii {c : Char} (h : 33 ≤ c.toNat ∧ c.toNat ≤ 126) : isBlank c = false := by
  simp only [isBlank, blankRanges, List.any_cons, List.any_nil, Bool.or_eq_false_iff,
    Bool.and_eq_false_iff, decide_eq_false_iff_not, and_true]
  omega

theorem isBlank_of_isNamePart {c : Char} (h : Token.isNamePart c = true) : isBlank c = false := by
  apply isBlank_of_ascii
  have upper : c.isUpper = decide (65 ≤ c.toNat ∧ c.toNat ≤ 90) := rfl
  have lower : c.isLower = (decide (97 ≤ c.toNat) && decide (c.toNat ≤ 122)) := rfl
  have digit : c.isDigit = (decide (48 ≤ c.toNat) && decide (c.toNat ≤ 57)) := rfl
  have alpha : c.isAlpha = (c.isUpper || c.isLower) := rfl
  simp only [Token.isNamePart, Char.isAlphanum, alpha, upper, lower, digit, Bool.or_eq_true,
    Bool.and_eq_true, decide_eq_true_eq, beq_iff_eq] at h
  rcases h with h | rfl
  · omega
  · decide

theorem isBlank_of_isDigit {c : Char} (h : c.isDigit = true) : isBlank c = false :=
  isBlank_of_isNamePart (by simp [Token.isNamePart, Char.isAlphanum, h])

variable {p : Char → Bool} {front tail : List Char}

/-- What is taken off the front of a text ends where the condition ends. -/
theorem takeWhile_front (h : ∀ c ∈ front, p c = true) (stop : ∀ c ∈ tail.head?, p c = false) :
    (front ++ tail).takeWhile p = front := by
  rw [List.takeWhile_append_of_pos h]
  cases tail with
  | nil => simp
  | cons c tail => simp [stop c rfl]

theorem dropWhile_front (h : ∀ c ∈ front, p c = true) (stop : ∀ c ∈ tail.head?, p c = false) :
    (front ++ tail).dropWhile p = tail := by
  rw [List.dropWhile_append_of_pos h]
  cases tail with
  | nil => rfl
  | cons c tail => simp [stop c rfl]

/-- White space goes on with nothing of which blanks are no part. -/
theorem Gap.stop (gap : Gap tail) (hp : ∀ c, p c = true → isBlank c = false) :
    ∀ c ∈ tail.head?, p c = false := by
  intro c hc
  have blank := gap c hc
  cases part : p c with
  | false => rfl
  | true => rw [hp c part] at blank; cases blank

end Text

namespace Number

open Text (Gap takeWhile_front dropWhile_front isBlank_of_isDigit)

/-- Only digits. -/
def Digits (text : List Char) : Prop :=
  ∀ c ∈ text, c.isDigit = true

theorem digits_takeWhile (text : List Char) : Digits (text.takeWhile Char.isDigit) :=
  List.all_eq_true.mp List.all_takeWhile

/-- An exponent that has the parts of one, maybe without digits. -/
structure Exponent.Formed (e : Exponent) : Prop where
  marker : e.marker = 'e' ∨ e.marker = 'E'
  sign : ∀ c ∈ e.sign, c = '+' ∨ c = '-'
  digits : Digits e.digits

/-- A numeral that has the parts of one. An exponent stands after a digit only. -/
structure Numeral.Formed (n : Numeral) : Prop where
  whole : Digits n.whole
  fraction : ∀ digits ∈ n.fraction, Digits digits
  exponent : ∀ e ∈ n.exponent, e.Formed
  mantissa : n.mantissa = [] → n.exponent = none

theorem sign_takeSign (text : List Char) : ∀ c ∈ (takeSign text).1, c = '+' ∨ c = '-' := by
  unfold takeSign
  split <;> simp

theorem Exponent.formed_scan (text : List Char) : ∀ e ∈ (scan text).1, e.Formed := by
  intro e he
  cases text with
  | nil => cases he
  | cons c rest =>
    simp only [scan] at he
    split at he
    · rename_i marker
      cases he
      exact ⟨marker, sign_takeSign rest, digits_takeWhile _⟩
    · cases he

theorem Numeral.fraction_takeFraction (text : List Char) :
    ∀ digits ∈ (takeFraction text).1, Digits digits := by
  unfold takeFraction
  split
  · rintro _ ⟨⟩
    exact digits_takeWhile _
  · simp

/-- What is scanned has the parts of a numeral. -/
theorem Numeral.formed_scan (text : List Char) : (scan text).1.Formed := by
  simp only [scan]
  split
  · exact ⟨digits_takeWhile text, fraction_takeFraction _, by simp, fun _ => rfl⟩
  · rename_i some
    refine ⟨digits_takeWhile text, fraction_takeFraction _, Exponent.formed_scan _, fun none => ?_⟩
    simp only [mantissa] at none
    simp [none] at some

variable {tail : List Char}

/-- A sign is taken where no digit and no blank is one. -/
theorem takeSign_append {sign : Option Char} {digits : List Char}
    (hs : ∀ c ∈ sign, c = '+' ∨ c = '-') (hd : Digits digits) (gap : Gap tail) :
    takeSign (sign.toList ++ (digits ++ tail)) = (sign, digits ++ tail) := by
  cases sign with
  | some c => rcases hs c rfl with rfl | rfl <;> rfl
  | none =>
    have head : ∀ c ∈ (digits ++ tail).head?, c.isDigit = true ∨ isBlank c = true := by
      cases digits with
      | nil => exact fun c hc => .inr (gap c hc)
      | cons c rest =>
        rintro _ ⟨⟩
        exact .inl (hd c List.mem_cons_self)
    simp only [Option.toList_none, List.nil_append]
    unfold takeSign
    split
    · rename_i rest found
      exact absurd (head '+' (by rw [found]; rfl)) (by decide)
    · rename_i rest found
      exact absurd (head '-' (by rw [found]; rfl)) (by decide)
    · rfl

/-- The parts of an exponent are found in it again. -/
theorem Exponent.scan_text {e : Exponent} (h : e.Formed) (gap : Gap tail) :
    scan (e.text ++ tail) = (some e, tail) := by
  have stop := gap.stop fun _ => isBlank_of_isDigit
  simp only [text, List.cons_append, List.append_assoc, scan, h.marker, if_true,
    takeSign_append h.sign h.digits gap, takeWhile_front h.digits stop,
    dropWhile_front h.digits stop]

/-- White space starts no exponent. -/
theorem Exponent.scan_gap (gap : Gap tail) : scan tail = (none, tail) := by
  cases tail with
  | nil => rfl
  | cons c rest =>
    have blank := gap c rfl
    have marker : ¬(c = 'e' ∨ c = 'E') := by
      rintro (rfl | rfl) <;> exact absurd blank (by decide)
    rw [scan, if_neg marker]

theorem Exponent.scan_append {exponent : Option Exponent} (h : ∀ e ∈ exponent, e.Formed)
    (gap : Gap tail) : scan (exponent.elim [] text ++ tail) = (exponent, tail) := by
  cases exponent with
  | none => exact scan_gap gap
  | some e => exact scan_text (h e rfl) gap

/-- Neither an exponent nor white space goes on with the digits of a numeral or its point. -/
theorem Exponent.stop_text {exponent : Option Exponent} (h : ∀ e ∈ exponent, e.Formed)
    (gap : Gap tail) :
    ∀ c ∈ (exponent.elim [] text ++ tail).head?, c.isDigit = false ∧ c ≠ '.' := by
  intro c hc
  cases exponent with
  | none =>
    have blank := gap c hc
    refine ⟨gap.stop (fun _ => isBlank_of_isDigit) c hc, ?_⟩
    rintro rfl
    exact absurd blank (by decide)
  | some e =>
    cases hc
    rcases (h e rfl).marker with marker | marker <;> rw [marker] <;> decide

/-- The digits after a point are found in it again. -/
theorem Numeral.takeFraction_append {fraction : Option (List Char)}
    (h : ∀ digits ∈ fraction, Digits digits)
    (stop : ∀ c ∈ tail.head?, c.isDigit = false ∧ c ≠ '.') :
    takeFraction (fraction.elim [] ('.' :: ·) ++ tail) = (fraction, tail) := by
  have front := fun digits hd => takeWhile_front (h digits hd) fun c hc => (stop c hc).1
  have rest := fun digits hd => dropWhile_front (h digits hd) fun c hc => (stop c hc).1
  cases fraction with
  | some digits => simp [takeFraction, front, rest]
  | none =>
    simp only [Option.elim_none, List.nil_append]
    unfold takeFraction
    split
    · exact absurd rfl (stop '.' rfl).2
    · rfl

/-- The parts of a numeral are found in it again. -/
theorem Numeral.scan_text {n : Numeral} (h : n.Formed) (gap : Gap tail) :
    scan (n.text ++ tail) = (n, tail) := by
  have stop := Exponent.stop_text h.exponent gap
  have stop' : ∀ c ∈ (n.fraction.elim [] ('.' :: ·) ++
      (n.exponent.elim [] Exponent.text ++ tail)).head?, c.isDigit = false := by
    cases fraction : n.fraction with
    | none => exact fun c hc => (stop c hc).1
    | some digits => rintro _ ⟨⟩; rfl
  simp only [scan, text, List.append_assoc, takeWhile_front h.whole stop',
    dropWhile_front h.whole stop', takeFraction_append h.fraction stop]
  split
  · rename_i empty
    obtain ⟨whole, fraction, exponent⟩ := n
    obtain rfl : exponent = none := h.mantissa (List.isEmpty_iff.mp empty)
    rfl
  · rw [Exponent.scan_append h.exponent gap]

end Number

namespace Token

open Text (Gap)
open Number (Numeral)

/-- A token is taken off again where white space or nothing comes after its characters. -/
theorem take_again (c : Char) (rest : List Char) {tail : List Char} (gap : Gap tail) :
    ∃ more, (take c rest).text = c :: more ∧
      take c (more ++ tail) = ⟨(take c rest).kind, (take c rest).text, tail⟩ := by
  by_cases numeral : (c.isDigit || c == '.') = true
  · have whole := Numeral.text_scan (c :: rest)
    have again := Numeral.scan_text (Numeral.formed_scan (c :: rest)) gap
    cases text : (Numeral.scan (c :: rest)).1.text with
    | nil => exact absurd text (numeral_ne_nil rest numeral)
    | cons first more =>
      rw [text] at whole again
      obtain ⟨rfl, -⟩ := List.cons.inj whole
      refine ⟨more, by simp [take, numeral, text], ?_⟩
      rw [List.cons_append] at again
      simp [take, numeral, again]
  by_cases name : c.isAlpha = true
  · have stop := gap.stop fun _ => Text.isBlank_of_isNamePart
    have part : ∀ c ∈ rest.takeWhile isNamePart, isNamePart c = true :=
      List.all_eq_true.mp List.all_takeWhile
    refine ⟨rest.takeWhile isNamePart, by simp [take, numeral, name], ?_⟩
    simp [take, numeral, name, Text.takeWhile_front part stop, Text.dropWhile_front part stop]
  · exact ⟨[], by simp [take, numeral, name], by simp [take, numeral, name]⟩

/-- What a token is, wherever it stands. -/
def word (t : Token) : Kind × String :=
  (t.kind, t.text)

/-- The token can be taken off some text, and is not the end of one. -/
def Spelled (t : Token) : Prop :=
  ∃ c rest, isBlank c = false ∧ t.kind = (take c rest).kind ∧
    t.text = String.ofList (take c rest).text

theorem spelled_single {c : Char} {kind : Kind} (visible : isBlank c = false)
    (h : (take c []).kind = kind) (text : (take c []).text = [c]) (span : Span) :
    Spelled ⟨kind, span, String.singleton c⟩ :=
  ⟨c, [], visible, h.symm, by rw [text]; rfl⟩

theorem Spelled.isFinish_eq {t : Token} (h : t.Spelled) : t.kind.isFinish = false := by
  obtain ⟨c, rest, -, kind, -⟩ := h
  rw [kind, isFinish_take]

theorem spelled_scan {position : Nat} {text : List Char}
    (h : (scan position text).1.isFinish = false) : (scan position text).1.Spelled := by
  simp only [scan] at h ⊢
  split
  · rename_i found
    simp [found, isFinish, Kind.isFinish] at h
  · rename_i c rest found
    have first := List.head?_dropWhile_not isBlank text
    rw [found] at first
    exact ⟨c, rest, by simpa using first, rfl, rfl⟩

/-- White space holds no token. -/
theorem isFinish_scan_blank {text : List Char} (h : ∀ c ∈ text, isBlank c = true)
    (position : Nat) : (scan position text).1.isFinish = true := by
  have none : (text ++ []).dropWhile isBlank = [] := Text.dropWhile_front h (by simp)
  rw [List.append_nil] at none
  simp only [scan, none]
  rfl

/-- A token is scanned again after white space and before white space or the end. -/
theorem Spelled.scan_again {t : Token} (h : t.Spelled) {blanks tail : List Char}
    (hb : ∀ c ∈ blanks, isBlank c = true) (gap : Gap tail) (position : Nat) :
    ∃ t', scan position (blanks ++ (t.text.toList ++ tail)) = (t', tail) ∧ t'.word = t.word := by
  obtain ⟨c, rest, visible, kind, text⟩ := h
  obtain ⟨more, parts, again⟩ := take_again c rest gap
  have front : (blanks ++ (c :: (more ++ tail))).dropWhile isBlank = c :: (more ++ tail) :=
    Text.dropWhile_front hb (by simp [visible])
  rw [text, String.toList_ofList, parts, List.cons_append]
  simp only [scan, front, again]
  exact ⟨_, rfl, by rw [word, word, kind, text]⟩

end Token

/-- Tokens are spelled out in a text, one after the other, with white space between them and
maybe at the two ends. -/
inductive Spaced : List Token → List Char → Prop where
  | nil {blanks : List Char} : (∀ c ∈ blanks, isBlank c = true) → Spaced [] blanks
  /-- Nothing comes after the last token. -/
  | last {blanks : List Char} {token : Token} :
      (∀ c ∈ blanks, isBlank c = true) → Spaced [token] (blanks ++ token.text.toList)
  | cons {blanks text : List Char} {blank : Char} {token : Token} {rest : List Token} :
      (∀ c ∈ blanks, isBlank c = true) → isBlank blank = true → Spaced rest text →
      Spaced (token :: rest) (blanks ++ (token.text.toList ++ blank :: text))

namespace Spaced

variable {ts rest : List Token} {token : Token} {text : List Char}

/-- More white space in front makes no difference. -/
theorem blank_cons (h : Spaced ts text) {blank : Char} (hb : isBlank blank = true) :
    Spaced ts (blank :: text) := by
  cases h with
  | nil blanks => exact .nil (List.forall_mem_cons.mpr ⟨hb, blanks⟩)
  | last blanks => exact .last (List.forall_mem_cons.mpr ⟨hb, blanks⟩)
  | cons blanks gap more => exact .cons (List.forall_mem_cons.mpr ⟨hb, blanks⟩) gap more

/-- Without tokens there is nothing but white space. -/
theorem blank (h : Spaced [] text) : ∀ c ∈ text, isBlank c = true := by
  cases h with
  | nil blanks => exact blanks

/-- The first token comes after white space, and what comes after it is white space and the
other tokens. -/
theorem uncons (h : Spaced (token :: rest) text) :
    ∃ blanks tail, text = blanks ++ (token.text.toList ++ tail) ∧
      (∀ c ∈ blanks, isBlank c = true) ∧ Text.Gap tail ∧ Spaced rest tail := by
  cases h with
  | @last blanks _ hb =>
    exact ⟨blanks, [], by rw [List.append_nil], hb, Text.gap_nil, .nil (List.forall_mem_nil _)⟩
  | @cons blanks text blank _ _ hb gap more =>
    exact ⟨blanks, blank :: text, rfl, hb, Text.gap_cons.mpr gap, more.blank_cons gap⟩

end Spaced

/-- The words of tokens, with a space before each of them. -/
def spell : List Token → List Char
  | [] => []
  | token :: rest => ' ' :: (token.text.toList ++ spell rest)

theorem spaced_spell_cons (token : Token) (rest : List Token) :
    Spaced (token :: rest) (token.text.toList ++ spell rest) := by
  induction rest generalizing token with
  | nil =>
    rw [spell, List.append_nil]
    exact @Spaced.last [] token (List.forall_mem_nil _)
  | cons next more ih => exact @Spaced.cons [] _ _ _ _ (List.forall_mem_nil _) rfl (ih next)

theorem spaced_spell (ts : List Token) : Spaced ts (spell ts) := by
  cases ts with
  | nil => exact .nil (List.forall_mem_nil _)
  | cons token rest => exact (spaced_spell_cons token rest).blank_cons rfl

namespace Cursor

/-- The tokens ahead of a cursor are not the end of a text, and can be spelled again. -/
theorem spelled_ahead {c : Cursor} (h : c.waiting = none) : ∀ token ∈ c.ahead, token.Spelled := by
  induction c using ahead.induct with
  | case1 c finish =>
    rw [ahead_of_finish finish]
    exact List.forall_mem_nil _
  | case2 c more ih =>
    have finish : c.next.1.isFinish = false := by simpa using more
    rw [ahead_of_more finish]
    refine List.forall_mem_cons.mpr ⟨?_, ih (waiting_next h)⟩
    rw [next_eq_fetch h] at finish ⊢
    exact Token.spelled_scan finish

/-- In front of tokens that are spelled out, a cursor hands out their words. -/
theorem map_word_ahead {c : Cursor} (h : c.waiting = none) {ts : List Token}
    (hs : ∀ token ∈ ts, token.Spelled) (spaced : Spaced ts c.rest) :
    c.ahead.map Token.word = ts.map Token.word := by
  induction ts generalizing c with
  | nil =>
    have finish : c.next.1.isFinish = true := by
      rw [next_eq_fetch h, fetch]
      exact Token.isFinish_scan_blank spaced.blank _
    rw [ahead_of_finish finish, List.map_nil]
  | cons token more ih =>
    obtain ⟨spelled, hs⟩ := List.forall_mem_cons.mp hs
    obtain ⟨blanks, tail, rest, hb, gap, spaced⟩ := spaced.uncons
    obtain ⟨token', scan, same⟩ := spelled.scan_again hb gap c.position
    have first : c.next.1 = token' := by
      rw [next_eq_fetch h, fetch, rest]
      exact congrArg Prod.fst scan
    have left : c.next.2.rest = tail := by
      rw [next_eq_fetch h, fetch, rest]
      exact congrArg Prod.snd scan
    have finish : c.next.1.isFinish = false := by
      have kind : token'.kind = token.kind := congrArg Prod.fst same
      rw [first, Token.isFinish, kind, spelled.isFinish_eq]
    rw [ahead_of_more finish, List.map_cons, List.map_cons, first, same,
      ih (waiting_next h) hs (left ▸ spaced)]

end Cursor

/-- A text in which words are spelled out has them for its tokens. -/
theorem map_word_tokens {ts : List Token} (hs : ∀ token ∈ ts, token.Spelled) {source : String}
    (spaced : Spaced ts source.toList) : (tokens source).map Token.word = ts.map Token.word :=
  Cursor.map_word_ahead rfl hs spaced

/-- Whatever words there are, a text has them. -/
theorem exists_tokens {ts : List Token} (hs : ∀ token ∈ ts, token.Spelled) :
    ∃ source, (tokens source).map Token.word = ts.map Token.word := by
  have spaced : Spaced ts (String.ofList (spell ts)).toList := by
    rw [String.toList_ofList]
    exact spaced_spell ts
  exact ⟨_, map_word_tokens hs spaced⟩

end Formula
