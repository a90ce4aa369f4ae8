import Formula.Proofs.Lossless
import Formula.Proofs.Spelling

/-!
# Scanning by bytes

Scanning as it goes through the bytes of a text, with every step checked: a text is only cut where
a character starts, and only what is there is taken out of it (`Checked.scan?`). A number is
scanned byte by byte and taken out of the text to be read, and no check ever fails
(`Checked.scan?_eq`): what is not scanned yet is what follows in the text (`Head.In`), and the
bytes that are looked for are characters of their own.
-/

namespace Formula

open Text (isBlank width cut? slice?)

namespace Text

/-- The bytes of a text. -/
def bytes (text : List Char) : List UInt8 :=
  text.flatMap String.utf8EncodeChar

theorem bytes_cons (c : Char) (text : List Char) :
    bytes (c :: text) = String.utf8EncodeChar c ++ bytes text :=
  List.flatMap_cons

theorem bytes_append (a b : List Char) : bytes (a ++ b) = bytes a ++ bytes b :=
  List.flatMap_append

theorem length_bytes (text : List Char) : (bytes text).length = width text := by
  induction text with
  | nil => rfl
  | cons c rest ih =>
    rw [bytes_cons, List.length_append, String.length_utf8EncodeChar, ih, width_cons]

/-- A character of ASCII is one byte, its code, and any other starts with a larger byte. -/
theorem exists_head?_encode (c : Char) :
    ∃ b, (String.utf8EncodeChar c).head? = some b ∧
      (b.toNat = c.toNat ∨ 128 ≤ b.toNat ∧ 128 ≤ c.toNat) := by
  have code : c.val.toNat = c.toNat := rfl
  by_cases ascii : c.toNat ≤ 127
  · have size : c.utf8Size = 1 := Char.utf8Size_eq_one_iff.mpr (UInt32.le_iff_toNat_le.mpr ascii)
    refine ⟨_, by rw [String.utf8EncodeChar_eq_singleton size]; rfl, .inl ?_⟩
    rw [UInt32.toNat_toUInt8, code]
    omega
  · have more : ∃ b, (String.utf8EncodeChar c).head? = some b ∧ 128 ≤ b.toNat := by
      unfold String.utf8EncodeChar
      simp only [code, if_neg ascii]
      split
      · exact ⟨_, rfl, by rw [UInt8.toNat_ofNat']; omega⟩
      split
      · exact ⟨_, rfl, by rw [UInt8.toNat_ofNat']; omega⟩
      · exact ⟨_, rfl, by rw [UInt8.toNat_ofNat']; omega⟩
    obtain ⟨b, first, high⟩ := more
    exact ⟨b, first, .inr ⟨high, by omega⟩⟩

/-- All characters of a class are in ASCII. -/
def Ascii (q : Char → Bool) : Prop :=
  ∀ c, q c = true → c.toNat < 128

/-- Whether a text starts with a byte that is the code of a character of a class. -/
def startsWith (q : Char → Bool) (text : List Char) : Bool :=
  (bytes text).head?.any fun b => q (Char.ofUInt8 b)

namespace Ascii

variable {q : Char → Bool} (h : Ascii q)
include h

theorem eq_false {c : Char} (wide : 128 ≤ c.toNat) : q c = false := by
  cases member : q c with
  | false => rfl
  | true => exact absurd (h c member) (Nat.not_lt.mpr wide)

/-- The characters of the class take one byte. -/
theorem utf8Size_eq {c : Char} (hc : q c = true) : c.utf8Size = 1 :=
  Char.utf8Size_eq_one_iff.mpr (UInt32.le_iff_toNat_le.mpr (Nat.le_of_lt_succ (h c hc)))

/-- To look at the first byte of a text is to look at its first character. -/
theorem startsWith_cons (c : Char) (rest : List Char) : startsWith q (c :: rest) = q c := by
  obtain ⟨b, first, code⟩ := exists_head?_encode c
  have found : (bytes (c :: rest)).head? = some b := by
    rw [bytes_cons, List.head?_append, first]
    rfl
  have value : (Char.ofUInt8 b).toNat = b.toNat := UInt8.toNat_toUInt32 b
  rw [startsWith, found, Option.any_some]
  rcases code with code | ⟨high, wide⟩
  · rw [Char.toNat_inj.mp (value.trans code)]
  · rw [h.eq_false wide, h.eq_false (value ▸ high)]

end Ascii

theorem isDigit_le {c : Char} (h : c.isDigit = true) : c.toNat ≤ 57 := by
  have digit : c.isDigit = (decide (48 ≤ c.toNat) && decide (c.toNat ≤ 57)) := rfl
  rw [digit, Bool.and_eq_true, decide_eq_true_eq, decide_eq_true_eq] at h
  exact h.2

theorem ascii_isDigit : Ascii Char.isDigit :=
  fun _ h => Nat.lt_of_le_of_lt (isDigit_le h) (by decide)

theorem ascii_eq {a : Char} (ha : a.toNat < 128) : Ascii (· == a) := by
  intro c hc
  rw [eq_of_beq hc]
  exact ha

theorem ascii_point : Ascii (· == '.') :=
  ascii_eq (by decide)

theorem Ascii.or {q r : Char → Bool} (hq : Ascii q) (hr : Ascii r) :
    Ascii fun c => q c || r c := by
  intro c hc
  rcases (Bool.or_eq_true _ _).mp hc with hc | hc
  · exact hq c hc
  · exact hr c hc

end Text

open Text (startsWith)
open Number (Numeral)

/-- What of a text is not scanned yet, and the byte at which it starts. -/
structure Head where
  position : Nat
  rest : List Char

namespace Head

/-- What is not scanned yet is what the text goes on with. -/
def In (source : List Char) (h : Head) : Prop :=
  ∃ before, source = before ++ h.rest ∧ h.position = width before

/-- Goes on by a number of bytes, if a character starts there. -/
def advance? (h : Head) (bytes : Nat) : Option Head :=
  (cut? bytes h.rest).map fun (_, rest) => ⟨h.position + bytes, rest⟩

theorem advance?_append (position : Nat) (front rest : List Char) :
    advance? ⟨position, front ++ rest⟩ (width front) = some ⟨position + width front, rest⟩ := by
  rw [advance?, Text.cut?_width]
  rfl

/-- One character of a class of ASCII is one byte. -/
theorem advance?_one {q : Char → Bool} (ascii : Text.Ascii q) {c : Char} (hc : q c = true)
    (position : Nat) (rest : List Char) :
    advance? ⟨position, c :: rest⟩ 1 = some ⟨position + 1, rest⟩ := by
  have step := advance?_append position [c] rest
  rwa [Text.width_cons, ascii.utf8Size_eq hc] at step

/-- Less of the text is left after going on. -/
theorem length_rest_lt {h after : Head} {bytes : Nat} (step : h.advance? bytes = some after)
    (some : 0 < bytes) : after.rest.length < h.rest.length := by
  obtain ⟨⟨front, rest⟩, cut, rfl⟩ := Option.map_eq_some_iff.mp step
  obtain ⟨whole, size⟩ := Text.cut?_eq_some_iff.mp cut
  have taken : front ≠ [] := by
    rintro rfl
    exact absurd size (Nat.ne_of_lt some)
  rw [whole, List.length_append]
  exact Nat.lt_add_of_pos_left (List.length_pos_iff.mpr taken)

end Head

/-! ## Numbers -/

namespace Checked

/-- Goes on over digits and at most one point, and tells whether there was a digit. -/
def mantissa? (digits point : Bool) (h : Head) : Option (Bool × Head) :=
  if startsWith Char.isDigit h.rest then
    match _step : h.advance? 1 with
    | some after => mantissa? true point after
    | none => none
  else if startsWith (· == '.') h.rest && !point then
    match _step : h.advance? 1 with
    | some after => mantissa? digits true after
    | none => none
  else some (digits, h)
termination_by h.rest.length
decreasing_by all_goals exact Head.length_rest_lt _step Nat.one_pos

/-- Goes on over a sign, if there is one. -/
def sign? (h : Head) : Option Head :=
  if startsWith (fun c => c == '+' || c == '-') h.rest then h.advance? 1 else some h

/-- Goes on over an exponent, if there is one, and tells whether it has digits. -/
def exponent? (h : Head) : Option (Bool × Head) :=
  if startsWith (fun c => c == 'e' || c == 'E') h.rest then do
    let h ← h.advance? 1
    let h ← sign? h
    let digits := width (h.rest.takeWhile Char.isDigit)
    if digits = 0 then some (false, h)
    else
      let h ← h.advance? digits
      some (true, h)
  else some (true, h)

/-- Goes on over a numeral of which the first character is scanned, and takes the numeral out of
the text to read it. -/
def number? (source : List Char) (start : Nat) (h : Head) : Option (Token.Kind × Head) := do
  let first ← (Text.bytes source)[start]?
  let first := Char.ofUInt8 first
  let (digits, h) ← mantissa? first.isDigit (first == '.') h
  if digits then
    let (complete, h) ← exponent? h
    if complete then
      let text ← slice? source ⟨start, h.position⟩
      match Number.read? text with
      | some value => some (.number value, h)
      | none => some (.invalid .malformedNumber, h)
    else some (.invalid .malformedNumber, h)
  else some (.invalid .unexpectedToken, h)

/-- Goes on over a token of which the first character is scanned. -/
def take? (source : List Char) (start : Nat) (c : Char) (h : Head) :
    Option (Token.Kind × Head) :=
  if c.isDigit || c == '.' then number? source start h
  else if c.isAlpha then do
    let h ← h.advance? (width (h.rest.takeWhile Token.isNamePart))
    some (.name, h)
  else some (Token.take.single c, h)

/-- Scans one token, which is taken out of the text. -/
def scan? (source : List Char) (h : Head) : Option (Token × Head) := do
  let h ← h.advance? (width (h.rest.takeWhile isBlank))
  match h.rest with
  | [] => some (⟨.finish, .point h.position, ""⟩, h)
  | c :: _ =>
    let after ← h.advance? c.utf8Size
    let (kind, last) ← take? source h.position c after
    let text ← slice? source ⟨h.position, last.position⟩
    some (⟨kind, ⟨h.position, last.position⟩, String.ofList text⟩, last)

section Mantissa

variable {digits point : Bool} {position : Nat} {c : Char} {rest text : List Char}

theorem mantissa?_digit (hc : c.isDigit = true) :
    mantissa? digits point ⟨position, c :: rest⟩ = mantissa? true point ⟨position + 1, rest⟩ := by
  have step := Head.advance?_one Text.ascii_isDigit hc position rest
  rw [mantissa?, if_pos ((Text.ascii_isDigit.startsWith_cons c rest).trans hc), step]

theorem mantissa?_period :
    mantissa? digits false ⟨position, '.' :: rest⟩ =
      mantissa? digits true ⟨position + 1, rest⟩ := by
  have step := Head.advance?_one Text.ascii_point (beq_self_eq_true '.') position rest
  have other : ¬startsWith Char.isDigit ('.' :: rest) = true := by
    rw [Text.ascii_isDigit.startsWith_cons]
    decide
  rw [mantissa?, if_neg other, Text.ascii_point.startsWith_cons, step]
  rfl

theorem mantissa?_stop (h₁ : ∀ c ∈ text.head?, c.isDigit = false)
    (h₂ : point = true ∨ ∀ c ∈ text.head?, c ≠ '.') :
    mantissa? digits point ⟨position, text⟩ = some (digits, ⟨position, text⟩) := by
  rw [mantissa?]
  cases text with
  | nil => rfl
  | cons c rest =>
    rw [Text.ascii_isDigit.startsWith_cons, Text.ascii_point.startsWith_cons, h₁ c rfl]
    rcases h₂ with rfl | h₂
    · rw [Bool.not_true, Bool.and_false]
      rfl
    · rw [beq_eq_false_iff_ne.mpr (h₂ c rfl)]
      rfl

/-- After a point only digits are left of a mantissa. -/
theorem mantissa?_point (digits : Bool) (position : Nat) (text : List Char) :
    mantissa? digits true ⟨position, text⟩ =
      some (digits || !(text.takeWhile Char.isDigit).isEmpty,
        ⟨position + width (text.takeWhile Char.isDigit), text.dropWhile Char.isDigit⟩) := by
  induction text generalizing digits position with
  | nil =>
    rw [mantissa?_stop (by simp) (.inl rfl)]
    simp
  | cons c rest ih =>
    by_cases digit : c.isDigit = true
    · have size := Text.ascii_isDigit.utf8Size_eq digit
      rw [mantissa?_digit digit, ih]
      simp [digit, size, Nat.add_assoc]
    · rw [mantissa?_stop (by simpa using digit) (.inl rfl)]
      simp [digit]

/-- The digits before the point, the point and the digits after it are scanned. -/
theorem mantissa?_eq (digits : Bool) (position : Nat) (text : List Char) :
    mantissa? digits false ⟨position, text⟩ =
      some (digits || !(text.takeWhile Char.isDigit ++
          (Numeral.takeFraction (text.dropWhile Char.isDigit)).1.getD []).isEmpty,
        ⟨position + width (text.takeWhile Char.isDigit ++
          (Numeral.takeFraction (text.dropWhile Char.isDigit)).1.elim [] ('.' :: ·)),
          (Numeral.takeFraction (text.dropWhile Char.isDigit)).2⟩) := by
  induction text generalizing digits position with
  | nil =>
    rw [mantissa?_stop (by simp) (.inr (by simp))]
    simp [Numeral.takeFraction]
  | cons c rest ih =>
    by_cases digit : c.isDigit = true
    · have size := Text.ascii_isDigit.utf8Size_eq digit
      rw [mantissa?_digit digit, ih]
      simp [digit, size, Nat.add_assoc]
    by_cases period : c = '.'
    · subst period
      have size : '.'.utf8Size = 1 := rfl
      rw [mantissa?_period, mantissa?_point]
      simp [digit, size, Numeral.takeFraction, Nat.add_assoc]
    · rw [mantissa?_stop (by simpa using digit) (.inr (by simpa using period))]
      simp [digit, Numeral.takeFraction, period]

end Mantissa

open Number (Exponent takeSign)

theorem sign?_eq (position : Nat) (text : List Char) :
    sign? ⟨position, text⟩ =
      some ⟨position + width (takeSign text).1.toList, (takeSign text).2⟩ := by
  have ascii : Text.Ascii (fun c => c == '+' || c == '-') :=
    (Text.ascii_eq (by decide)).or (Text.ascii_eq (by decide))
  cases text with
  | nil => rfl
  | cons c rest =>
    rw [sign?, ascii.startsWith_cons]
    split
    · rename_i sign
      rw [Head.advance?_one ascii sign]
      rcases (Bool.or_eq_true _ _).mp sign with sign | sign <;> cases eq_of_beq sign <;> rfl
    · rename_i other
      have none : takeSign (c :: rest) = (none, c :: rest) := by
        unfold takeSign
        split <;> simp_all
      rw [none]
      rfl

/-- An exponent is scanned with its sign and its digits. -/
theorem exponent?_eq (position : Nat) (text : List Char) :
    exponent? ⟨position, text⟩ =
      some ((Exponent.scan text).1.all fun e => !e.digits.isEmpty,
        ⟨position + width ((Exponent.scan text).1.elim [] Exponent.text),
          (Exponent.scan text).2⟩) := by
  have ascii : Text.Ascii (fun c => c == 'e' || c == 'E') :=
    (Text.ascii_eq (by decide)).or (Text.ascii_eq (by decide))
  cases text with
  | nil => rfl
  | cons c rest =>
    rw [exponent?, ascii.startsWith_cons]
    split
    · rename_i marker
      have marked : c = 'e' ∨ c = 'E' := by simpa using marker
      have step := Head.advance?_append (position + 1 + width (takeSign rest).1.toList)
        ((takeSign rest).2.takeWhile Char.isDigit) ((takeSign rest).2.dropWhile Char.isDigit)
      have whole := List.takeWhile_append_dropWhile (p := Char.isDigit) (l := (takeSign rest).2)
      rw [whole] at step
      simp only [Head.advance?_one ascii marker, sign?_eq, Option.bind_eq_bind, Option.bind_some,
        Exponent.scan, marked, if_true, Option.all_some, Option.elim_some, Exponent.text,
        Text.width_cons, Text.width_append, ascii.utf8Size_eq marker, step]
      split
      · rename_i none
        have empty := Text.width_eq_zero_iff.mp none
        rw [empty, List.nil_append] at whole
        simp [empty, whole, Nat.add_assoc]
      · rename_i some
        have full : (takeSign rest).2.takeWhile Char.isDigit ≠ [] :=
          mt Text.width_eq_zero_iff.mpr some
        simp [full, Nat.add_assoc]
    · rename_i other
      have unmarked : ¬(c = 'e' ∨ c = 'E') := by simpa using other
      simp [Exponent.scan, unmarked]

/-- The first character of a numeral tells whether there was a digit or a point. -/
theorem mantissa?_first {c : Char} (h : (c.isDigit || c == '.') = true) (position : Nat)
    (rest : List Char) :
    mantissa? c.isDigit (c == '.') ⟨position + c.utf8Size, rest⟩ =
      mantissa? false false ⟨position, c :: rest⟩ := by
  by_cases digit : c.isDigit = true
  · have other : (c == '.') = false := by
      rw [beq_eq_false_iff_ne]
      rintro rfl
      cases digit
    rw [digit, other, mantissa?_digit digit, Text.ascii_isDigit.utf8Size_eq digit]
  · have period : c = '.' := by simpa [digit] using h
    subst period
    rw [mantissa?_period]
    rfl

/-- A numeral with a digit starts with one or with a point. -/
theorem exists_text_eq {n : Numeral} (formed : n.Formed) (some : n.mantissa ≠ []) :
    ∃ c rest, n.text = c :: rest ∧ (c.isDigit || c == '.') = true := by
  obtain ⟨whole, fraction, exponent⟩ := n
  cases whole with
  | cons c rest =>
    exact ⟨c, _, rfl, by rw [formed.whole c List.mem_cons_self, Bool.true_or]⟩
  | nil =>
    cases fraction with
    | some digits => exact ⟨'.', _, rfl, rfl⟩
    | none => exact absurd rfl some

/-- Neither a digit nor a point starts a sign or a word. -/
theorem read?_of_first {c : Char} (first : (c.isDigit || c == '.') = true) (rest : List Char) :
    Number.read? (c :: rest) = Numeral.read? (c :: rest) := by
  have sign : takeSign (c :: rest) = (none, c :: rest) := by
    unfold takeSign
    split <;> simp_all
  have same : c.toLower = c := by
    unfold Char.toLower
    refine dif_neg fun upper => ?_
    have large : 65 ≤ c.toNat := UInt32.le_iff_toNat_le.mp upper.1
    rcases (Bool.or_eq_true _ _).mp first with digit | period
    · have small := Text.isDigit_le digit
      omega
    · cases eq_of_beq period
      exact absurd large (by decide)
  have other : ∀ word : String, word.toList.head? = some 'i' ∨ word.toList.head? = some 'n' →
      String.ofList ((c :: rest).map Char.toLower) ≠ word := by
    rintro _ start rfl
    rw [String.toList_ofList, List.map_cons, List.head?_cons, same] at start
    rcases start with start | start <;> cases start <;> cases first
  have inf : ¬(String.ofList ((c :: rest).map Char.toLower) = "inf" ∨
      String.ofList ((c :: rest).map Char.toLower) = "infinity") :=
    not_or.mpr ⟨other "inf" (.inl rfl), other "infinity" (.inl rfl)⟩
  simp only [Number.read?, sign, if_neg inf, if_neg (other "nan" (.inr rfl))]
  rfl

/-- A complete numeral is read as a number. -/
theorem read?_text {n : Numeral} (formed : n.Formed) (some : n.mantissa ≠ [])
    (complete : n.exponentComplete = true) : Number.read? n.text = Option.some n.value := by
  have scanned := Numeral.scan_text formed Text.gap_nil
  rw [List.append_nil] at scanned
  obtain ⟨c, rest, text, first⟩ := exists_text_eq formed some
  rw [text, read?_of_first first, ← text, Numeral.read?, scanned]
  simp [some, complete]

/-- What a numeral with digits is, is told by its exponent and by what is read. -/
theorem ofNumeral_eq {n : Numeral} (formed : n.Formed) (some : n.mantissa ≠ []) :
    Token.Kind.ofNumeral n =
      if n.exponentComplete then
        match Number.read? n.text with
        | Option.some value => .number value
        | none => .invalid .malformedNumber
      else .invalid .malformedNumber := by
  rw [Token.Kind.ofNumeral, if_neg (by simpa using some)]
  split
  · rename_i complete
    rw [read?_text formed some complete]
  · rfl

/-- The byte at which a character of ASCII starts is its code. -/
theorem getElem?_bytes {before rest : List Char} {c : Char} (ascii : c.toNat < 128) :
    ∃ b, (Text.bytes (before ++ c :: rest))[width before]? = some b ∧ Char.ofUInt8 b = c := by
  obtain ⟨b, first, code⟩ := Text.exists_head?_encode c
  have code : b.toNat = c.toNat := by omega
  refine ⟨b, ?_, Char.toNat_inj.mp ((UInt8.toNat_toUInt32 b).trans code)⟩
  rw [Text.bytes_append, ← Text.length_bytes, List.getElem?_append_right (Nat.le_refl _),
    Nat.sub_self, ← List.head?_eq_getElem?, Text.bytes_cons, List.head?_append, first]
  rfl

/-- A numeral is scanned in one pass over its bytes, and what is taken out of the text is read. -/
theorem number?_eq {source before rest : List Char} {c : Char} (h : source = before ++ c :: rest)
    (first : (c.isDigit || c == '.') = true) :
    number? source (width before) ⟨width before + c.utf8Size, rest⟩ =
      some (.ofNumeral (Numeral.scan (c :: rest)).1,
        ⟨width before + width (Numeral.scan (c :: rest)).1.text,
          (Numeral.scan (c :: rest)).2⟩) := by
  have ascii : Text.Ascii fun c => c.isDigit || c == '.' :=
    Text.ascii_isDigit.or Text.ascii_point
  obtain ⟨b, found, value⟩ := @getElem?_bytes before rest c (ascii c first)
  rw [← h] at found
  have parts := Numeral.text_scan (c :: rest)
  have formed := Numeral.formed_scan (c :: rest)
  have scan : Numeral.scan (c :: rest) = Numeral.scan (c :: rest) := rfl
  conv at scan => rhs; unfold Numeral.scan
  rw [number?, found]
  simp only [Option.bind_eq_bind, Option.bind_some, value, mantissa?_first first, mantissa?_eq,
    Bool.false_or, exponent?_eq]
  generalize (c :: rest).takeWhile Char.isDigit = whole at scan ⊢
  generalize Numeral.takeFraction ((c :: rest).dropWhile Char.isDigit) = taken at scan ⊢
  obtain ⟨fraction, tail⟩ := taken
  simp only at scan ⊢
  by_cases none : (whole ++ fraction.getD []).isEmpty = true
  · rw [if_pos none] at scan
    rw [scan]
    simp [none, Token.Kind.ofNumeral, Numeral.mantissa, Numeral.text]
  · rw [if_neg none] at scan
    rw [scan] at parts formed ⊢
    generalize Exponent.scan tail = taken at parts formed ⊢
    obtain ⟨exponent, tail⟩ := taken
    simp only at parts formed ⊢
    obtain ⟨n, hn⟩ : ∃ n, n = Numeral.mk whole fraction exponent := ⟨_, rfl⟩
    have size : width before + width (whole ++ fraction.elim [] ('.' :: ·)) +
        width (exponent.elim [] Exponent.text) = width before + width n.text := by
      simp [hn, Numeral.text, Nat.add_assoc]
    have some : n.mantissa ≠ [] := by simpa [hn, Numeral.mantissa] using none
    have complete : exponent.all (fun e => !e.digits.isEmpty) = n.exponentComplete := by
      rw [hn]
      rfl
    rw [← hn] at parts formed ⊢
    have held : slice? source ⟨width before, width before + width n.text⟩ = Option.some n.text :=
      Text.slice?_eq_some_iff.mpr ⟨before, tail, by rw [h, parts], rfl, rfl⟩
    simp only [none, Bool.not_false, if_true, size, complete, held, Option.bind_some,
      ofNumeral_eq formed some]
    split
    · cases Number.read? n.text <;> rfl
    · rfl

/-! ## Tokens -/

theorem take?_eq {source before rest : List Char} {c : Char} (h : source = before ++ c :: rest) :
    take? source (width before) c ⟨width before + c.utf8Size, rest⟩ =
      some ((Token.take c rest).kind,
        ⟨width before + width (Token.take c rest).text, (Token.take c rest).rest⟩) := by
  rw [take?]
  split
  · rename_i numeral
    rw [number?_eq h numeral]
    simp [Token.take, numeral]
  rename_i numeral
  split
  · rename_i name
    have step := Head.advance?_append (width before + c.utf8Size) (rest.takeWhile Token.isNamePart)
      (rest.dropWhile Token.isNamePart)
    rw [List.takeWhile_append_dropWhile] at step
    simp [step, Token.take, numeral, name, Nat.add_assoc]
  · rename_i name
    simp [Token.take, numeral, name]

/-- No check fails when a token is scanned. -/
theorem scan?_eq {source : List Char} {h : Head} (inside : h.In source) :
    scan? source h = some ((Token.scan h.position h.rest).1,
      ⟨(Token.scan h.position h.rest).1.span.stop, (Token.scan h.position h.rest).2⟩) := by
  obtain ⟨position, text⟩ := h
  obtain ⟨before, rfl, start⟩ := inside
  obtain rfl : position = width before := start
  have blanks := Head.advance?_append (width before) (text.takeWhile isBlank)
    (text.dropWhile isBlank)
  rw [List.takeWhile_append_dropWhile] at blanks
  have whole := List.takeWhile_append_dropWhile (p := isBlank) (l := text)
  rw [scan?]
  simp only [blanks, Option.bind_eq_bind, Option.bind_some, Token.scan]
  generalize text.dropWhile isBlank = tail at whole
  cases tail with
  | nil => rfl
  | cons c rest =>
    have inside : before ++ text = (before ++ text.takeWhile isBlank) ++ c :: rest := by
      rw [List.append_assoc, whole]
    have first := Head.advance?_append (width before + width (text.takeWhile isBlank)) [c] rest
    have taken := take?_eq inside
    rw [Text.width_append] at taken
    simp only [List.singleton_append, Text.width_cons, Text.width_nil, Nat.add_zero] at first
    simp only [first, taken, Option.bind_some]
    have held : slice? (before ++ text) ⟨width before + width (text.takeWhile isBlank),
        width before + width (text.takeWhile isBlank) + width (Token.take c rest).text⟩ =
          some (Token.take c rest).text := by
      refine Text.slice?_eq_some_iff.mpr
        ⟨before ++ text.takeWhile isBlank, (Token.take c rest).rest, ?_, ?_, ?_⟩
      · rw [inside, Token.take_append]
      · rw [Text.width_append]
      · rw [Text.width_append]
    rw [held]
    rfl

end Checked

end Formula
