import Formula.Proofs.Checked.Scan

/-!
# Numbers are the longest literals

A literal is a mantissa, which is digits with at most one point among them, and maybe an exponent,
which is a marker, a sign or none, and digits. Where a digit or a point stands in a text, as much
of each part is taken as there is (`Text.Longest`), and these parts tell what the token is
(`Literal`): a point alone is no number, an exponent without digits makes a number malformed, and
anything else is the number that its text is read as (`scan_literal`).

A text has one literal at most (`Literal.unique`), so the token is told in full.
-/

namespace Formula

open Text (isBlank width)

namespace Text

/-- The longest beginning of a text that has a property. -/
structure Longest (p : List Char → Prop) (text run : List Char) : Prop where
  begins : run <+: text
  holds : p run
  longest : ∀ other, other <+: text → p other → other.length ≤ run.length

namespace Longest

variable {p : List Char → Prop} {text run run' tail : List Char}

theorem unique (h : Longest p text run) (h' : Longest p text run') : run = run' := by
  have le := h'.longest run h.begins h.holds
  have ge := h.longest run' h'.begins h'.holds
  exact (List.prefix_of_prefix_length_le h.begins h'.begins le).eq_of_length (Nat.le_antisymm le ge)

/-- If beginnings keep a property, the longest one with it ends where one more character would
break it. -/
theorem of_stop (closed : ∀ a b, p (a ++ b) → p a) (holds : p run)
    (stop : ∀ c ∈ tail.head?, ¬p (run ++ [c])) : Longest p (run ++ tail) run := by
  refine ⟨List.prefix_append run tail, holds, fun other begins ho => ?_⟩
  obtain ⟨after, whole⟩ := begins
  rcases List.append_eq_append_iff.mp whole with ⟨mid, rfl, -⟩ | ⟨mid, rfl, rest⟩
  · simp
  · cases mid with
    | nil => simp
    | cons c mid =>
      rw [List.append_cons] at ho
      exact absurd (closed _ mid ho) (stop c (by rw [rest]; rfl))

end Longest

end Text

namespace Number

open Text (Longest)

/-- Digits with at most one point among them. -/
def IsMantissa (text : List Char) : Prop :=
  (∀ c ∈ text, c.isDigit = true ∨ c = '.') ∧ text.count '.' ≤ 1

/-- A sign, or none. -/
def IsSign (text : List Char) : Prop :=
  (∀ c ∈ text, c = '+' ∨ c = '-') ∧ text.length ≤ 1

/-- What a text goes on with after a mantissa: a marker with the sign after it, and the digits
after them. There is nothing of this if there is no marker. -/
inductive ExponentParts (text : List Char) : List Char → List Char → Prop where
  | none : (∀ c ∈ text.head?, c ≠ 'e' ∧ c ≠ 'E') → ExponentParts text [] []
  | some {marker : Char} {sign digits rest : List Char} :
      marker = 'e' ∨ marker = 'E' → text = marker :: (sign ++ rest) →
      Longest IsSign (sign ++ rest) sign → Longest Digits rest digits →
      ExponentParts text (marker :: sign) digits

theorem ExponentParts.unique {text front digits front' digits' : List Char}
    (h : ExponentParts text front digits) (h' : ExponentParts text front' digits') :
    front = front' ∧ digits = digits' := by
  cases h with
  | none stop =>
    cases h' with
    | none => exact ⟨rfl, rfl⟩
    | some marked whole =>
      obtain ⟨ne, ne'⟩ := stop _ (by rw [whole]; rfl)
      exact absurd marked (not_or.mpr ⟨ne, ne'⟩)
  | some marked whole sign digits =>
    cases h' with
    | none stop =>
      obtain ⟨ne, ne'⟩ := stop _ (by rw [whole]; rfl)
      exact absurd marked (not_or.mpr ⟨ne, ne'⟩)
    | some _ whole' sign' digits' =>
      obtain ⟨rfl, same⟩ := List.cons.inj (whole.symm.trans whole')
      rw [same] at sign
      obtain rfl := sign.unique sign'
      obtain rfl := List.append_cancel_left same
      exact ⟨rfl, digits.unique digits'⟩

/-! ## The parts that are scanned -/

/-- A digit would have been taken. -/
theorem stop_digits (text : List Char) :
    ∀ c ∈ (text.dropWhile Char.isDigit).head?, c.isDigit = false := by
  intro c hc
  have stop := List.head?_dropWhile_not Char.isDigit text
  rw [hc] at stop
  simpa using stop

theorem longest_digits (text : List Char) :
    Longest Digits text (text.takeWhile Char.isDigit) := by
  have longest : Longest Digits
      (text.takeWhile Char.isDigit ++ text.dropWhile Char.isDigit) (text.takeWhile Char.isDigit) :=
    .of_stop (fun a b h => (List.forall_mem_append.mp h).1) (digits_takeWhile text)
      fun c hc digits => absurd (digits c (by simp)) (by simp [stop_digits text c hc])
  rwa [List.takeWhile_append_dropWhile] at longest

/-- A sign would have been taken. -/
theorem stop_takeSign {text : List Char} (none : (takeSign text).1 = none) :
    ∀ c ∈ (takeSign text).2.head?, ¬(c = '+' ∨ c = '-') := by
  cases text with
  | nil => simp [takeSign]
  | cons c rest =>
    unfold takeSign at none ⊢
    split at none
    · cases none
    · cases none
    · simp_all

theorem longest_takeSign (text : List Char) : Longest IsSign text (takeSign text).1.toList := by
  have size : (takeSign text).1.toList.length ≤ 1 := by cases (takeSign text).1 <;> simp
  have longest : Longest IsSign
      ((takeSign text).1.toList ++ (takeSign text).2) (takeSign text).1.toList := by
    refine .of_stop (fun a b h => ?_) ⟨by simpa using sign_takeSign text, size⟩ fun c hc more => ?_
    · obtain ⟨signs, one⟩ := h
      rw [List.length_append] at one
      exact ⟨(List.forall_mem_append.mp signs).1, by omega⟩
    · obtain ⟨signs, one⟩ := more
      have sign := signs c (by simp)
      cases taken : (takeSign text).1 with
      | none => exact stop_takeSign taken c hc sign
      | some => simp [taken] at one
  rwa [takeSign_text] at longest

/-- The parts of an exponent that is scanned are as long as they can be. -/
theorem exponentParts_scan (text : List Char) :
    ExponentParts text ((Exponent.scan text).1.elim [] fun e => e.marker :: e.sign.toList)
      ((Exponent.scan text).1.elim [] Exponent.digits) := by
  cases text with
  | nil => exact .none (by simp)
  | cons c rest =>
    by_cases marked : c = 'e' ∨ c = 'E'
    · simp only [Exponent.scan, if_pos marked, Option.elim_some]
      have sign : Longest IsSign ((takeSign rest).1.toList ++ (takeSign rest).2)
          (takeSign rest).1.toList := by
        rw [takeSign_text]
        exact longest_takeSign rest
      exact .some marked (by rw [takeSign_text]) sign (longest_digits _)
    · simp only [Exponent.scan, if_neg marked, Option.elim_none]
      exact .none (by simpa using marked)

theorem Digits.count_point {text : List Char} (h : Digits text) : text.count '.' = 0 :=
  List.count_eq_zero.mpr fun mem => absurd (h '.' mem) (by decide)

theorem IsMantissa.of_append {a b : List Char} (h : IsMantissa (a ++ b)) : IsMantissa a := by
  obtain ⟨only, few⟩ := h
  rw [List.count_append] at few
  exact ⟨(List.forall_mem_append.mp only).1, by omega⟩

theorem isMantissa_of_digits {text : List Char} (h : Digits text) : IsMantissa text :=
  ⟨fun c hc => .inl (h c hc), by rw [h.count_point]; omega⟩

/-- Digits up to something else than a digit or a point are a mantissa. -/
theorem longest_whole {whole tail : List Char} (digits : Digits whole)
    (stop : ∀ c ∈ tail.head?, c.isDigit = false ∧ c ≠ '.') :
    Longest IsMantissa (whole ++ tail) whole := by
  refine .of_stop (fun a b => IsMantissa.of_append) (isMantissa_of_digits digits) ?_
  intro c hc more
  obtain ⟨other, another⟩ := stop c hc
  rcases more.1 c (by simp) with digit | point
  · exact absurd digit (by simp [other])
  · exact another point

/-- So are digits after a point, up to something else than a digit. -/
theorem longest_fraction {whole digits tail : List Char} (hw : Digits whole) (hd : Digits digits)
    (stop : ∀ c ∈ tail.head?, c.isDigit = false) :
    Longest IsMantissa (whole ++ '.' :: digits ++ tail) (whole ++ '.' :: digits) := by
  have one : (whole ++ '.' :: digits).count '.' = 1 := by
    rw [List.count_append, List.count_cons_self, hw.count_point, hd.count_point]
  refine .of_stop (fun a b => IsMantissa.of_append) ⟨fun c hc => ?_, Nat.le_of_eq one⟩
    fun c hc more => ?_
  · rcases List.mem_append.mp hc with hc | hc
    · exact .inl (hw c hc)
    · exact (List.mem_cons.mp hc).symm.imp_left (hd c)
  · obtain ⟨only, few⟩ := more
    rcases only c (by simp) with digit | rfl
    · exact absurd digit (by simp [stop c hc])
    · rw [List.count_append, one] at few
      exact absurd few (by decide)

/-- A numeral up to its exponent. -/
def Numeral.front (n : Numeral) : List Char :=
  n.whole ++ n.fraction.elim [] ('.' :: ·)

theorem Numeral.text_eq (n : Numeral) :
    n.text = n.front ++ ((n.exponent.elim [] fun e => e.marker :: e.sign.toList) ++
      n.exponent.elim [] Exponent.digits) := by
  rw [text, front, List.append_assoc]
  cases n.exponent <;> rfl

/-- The mantissa that is taken is as long as it can be. -/
theorem Numeral.longest_front (text : List Char) (exponent : Option Exponent) :
    Longest IsMantissa text (front ⟨text.takeWhile Char.isDigit,
      (takeFraction (text.dropWhile Char.isDigit)).1, exponent⟩) := by
  have whole := List.takeWhile_append_dropWhile (p := Char.isDigit) (l := text)
  have digits := digits_takeWhile text
  have stop := stop_digits text
  rw [front]
  generalize text.takeWhile Char.isDigit = run at whole digits ⊢
  generalize text.dropWhile Char.isDigit = rest at whole stop ⊢
  subst whole
  by_cases point : rest.head? = some '.'
  · obtain ⟨rest, rfl⟩ := List.head?_eq_some_iff.mp point
    have longest := longest_fraction digits (digits_takeWhile rest) (stop_digits rest)
    rwa [List.append_assoc, List.cons_append, List.takeWhile_append_dropWhile] at longest
  · have none : takeFraction rest = (none, rest) := by
      unfold takeFraction
      split
      · exact absurd rfl point
      · rfl
    rw [none, Option.elim_none, List.append_nil]
    refine longest_whole digits fun c hc => ⟨stop c hc, ?_⟩
    rintro rfl
    exact point hc

/-- After a mantissa without digits nothing is taken, and after another one an exponent is. -/
theorem Numeral.scan_parts (text : List Char) :
    ∃ tail, text = (scan text).1.front ++ tail ∧ Longest IsMantissa text (scan text).1.front ∧
      (scan text).1.exponent =
        if (scan text).1.mantissa.isEmpty then none else (Exponent.scan tail).1 := by
  have pieces := text_takeFraction (text.dropWhile Char.isDigit)
  refine ⟨(takeFraction (text.dropWhile Char.isDigit)).2, ?_⟩
  simp only [scan]
  split
  · rename_i empty
    refine ⟨?_, longest_front text none, (if_pos empty).symm⟩
    rw [front, List.append_assoc, pieces, List.takeWhile_append_dropWhile]
  · rename_i some
    refine ⟨?_, longest_front text _, (if_neg some).symm⟩
    rw [front, List.append_assoc, pieces, List.takeWhile_append_dropWhile]

/-- A mantissa that is not empty has its digits in the numeral. -/
theorem Numeral.Formed.exists_digit {n : Numeral} (formed : n.Formed) (some : n.mantissa ≠ []) :
    ∃ c ∈ n.front, c.isDigit = true := by
  obtain ⟨c, hc⟩ := List.exists_mem_of_ne_nil _ some
  rcases List.mem_append.mp hc with hc | hc
  · exact ⟨c, List.mem_append_left _ hc, formed.whole c hc⟩
  · cases fraction : n.fraction with
    | none => simp [fraction] at hc
    | some digits =>
      rw [fraction, Option.getD_some] at hc
      exact ⟨c, by simp [front, fraction, hc], formed.fraction digits fraction c hc⟩

/-- A mantissa that has a digit stands at the front of a text, and an exponent or nothing after
it. -/
structure Parts (text mantissa tail front digits : List Char) : Prop where
  whole : text = mantissa ++ tail
  longest : Longest IsMantissa text mantissa
  digit : ∃ c ∈ mantissa, c.isDigit = true
  exponent : ExponentParts tail front digits

namespace Parts

variable {text mantissa tail front digits mantissa' tail' front' digits' : List Char}

theorem unique (h : Parts text mantissa tail front digits)
    (h' : Parts text mantissa' tail' front' digits') :
    mantissa = mantissa' ∧ front = front' ∧ digits = digits' := by
  obtain rfl := h.longest.unique h'.longest
  obtain rfl := List.append_cancel_left (h.whole.symm.trans h'.whole)
  exact ⟨rfl, h.exponent.unique h'.exponent⟩

/-- There is no such mantissa if the longest is a point. -/
theorem ne_point (h : Parts text mantissa tail front digits) : ¬Longest IsMantissa text ['.'] := by
  intro point
  obtain ⟨c, hc, digit⟩ := h.digit
  rw [h.longest.unique point] at hc
  cases List.mem_singleton.mp hc
  exact absurd digit (by decide)

end Parts

end Number

open Number (Numeral IsMantissa)

/-- What stands at the front of a text that starts with a digit or a point, and what it is. -/
inductive Literal (text : List Char) : List Char → Token.Kind → Prop where
  /-- The mantissa has no digit. -/
  | point : Text.Longest IsMantissa text ['.'] → Literal text ['.'] (.invalid .unexpectedToken)
  /-- There is no exponent, or it has digits. -/
  | number {mantissa tail front digits : List Char} {value : Float} :
      Number.Parts text mantissa tail front digits → front = [] ∨ digits ≠ [] →
      Number.read? (mantissa ++ (front ++ digits)) = some value →
      Literal text (mantissa ++ (front ++ digits)) (.number value)
  /-- There is an exponent, and it has no digits. -/
  | malformed {mantissa tail front : List Char} :
      Number.Parts text mantissa tail front [] → front ≠ [] →
      Literal text (mantissa ++ front) (.invalid .malformedNumber)

/-- A text has one literal at most. -/
theorem Literal.unique {text run run' : List Char} {kind kind' : Token.Kind}
    (h : Literal text run kind) (h' : Literal text run' kind') : run = run' ∧ kind = kind' := by
  cases h with
  | point longest =>
    cases h' with
    | point => exact ⟨rfl, rfl⟩
    | number parts | malformed parts => exact absurd longest parts.ne_point
  | number parts complete read =>
    cases h' with
    | point longest => exact absurd longest parts.ne_point
    | number parts' _ read' =>
      obtain ⟨rfl, rfl, rfl⟩ := parts.unique parts'
      exact ⟨rfl, congrArg Token.Kind.number (Option.some.inj (read.symm.trans read'))⟩
    | malformed parts' marked =>
      obtain ⟨rfl, rfl, rfl⟩ := parts.unique parts'
      exact absurd complete (by simp [marked])
  | malformed parts marked =>
    cases h' with
    | point longest => exact absurd longest parts.ne_point
    | number parts' complete =>
      obtain ⟨rfl, rfl, rfl⟩ := parts.unique parts'
      exact absurd complete (by simp [marked])
    | malformed parts' =>
      obtain ⟨rfl, rfl, -⟩ := parts.unique parts'
      exact ⟨rfl, rfl⟩

/-- Reading a text that is taken for a number does not fail. -/
theorem Literal.exists_value {text run mantissa tail front digits : List Char} {kind : Token.Kind}
    (h : Literal text run kind) (parts : Number.Parts text mantissa tail front digits)
    (complete : front = [] ∨ digits ≠ []) :
    ∃ value, Number.read? (mantissa ++ (front ++ digits)) = some value := by
  cases h with
  | point longest => exact absurd longest parts.ne_point
  | number parts' _ read =>
    obtain ⟨rfl, rfl, rfl⟩ := parts.unique parts'
    exact ⟨_, read⟩
  | malformed parts' marked =>
    obtain ⟨rfl, rfl, rfl⟩ := parts.unique parts'
    exact absurd complete (by simp [marked])

/-- What is taken of a text that starts with a digit or a point is its literal. -/
theorem literal_numeral {c : Char} (rest : List Char) (first : (c.isDigit || c == '.') = true) :
    Literal (c :: rest) (Numeral.scan (c :: rest)).1.text
      (.ofNumeral (Numeral.scan (c :: rest)).1) := by
  have formed := Numeral.formed_scan (c :: rest)
  have taken := Token.numeral_ne_nil rest first
  obtain ⟨tail, whole, longest, exponent⟩ := Numeral.scan_parts (c :: rest)
  generalize (Numeral.scan (c :: rest)).1 = n at formed taken whole longest exponent ⊢
  by_cases empty : n.mantissa.isEmpty = true
  · obtain ⟨units, fraction, _⟩ := n
    obtain rfl : _ = none := exponent.trans (if_pos empty)
    obtain ⟨rfl, none⟩ := List.append_eq_nil_iff.mp (List.isEmpty_iff.mp empty)
    cases fraction with
    | none => exact absurd rfl taken
    | some digits =>
      obtain rfl : digits = [] := none
      exact .point longest
  have some : n.mantissa ≠ [] := by simpa using empty
  have scanned := Number.exponentParts_scan tail
  rw [← exponent.trans (if_neg empty)] at scanned
  have parts : Number.Parts (c :: rest) n.front tail _ _ :=
    ⟨whole, longest, formed.exists_digit some, scanned⟩
  rw [Token.Kind.ofNumeral, if_neg empty]
  by_cases complete : n.exponentComplete = true
  · have value := Checked.read?_text formed some complete
    rw [if_pos complete]
    rw [n.text_eq] at value ⊢
    refine .number parts ?_ value
    cases e : n.exponent with
    | none => exact .inl rfl
    | some => exact .inr (by simpa [Numeral.exponentComplete, e] using complete)
  · rw [if_neg complete, n.text_eq]
    cases e : n.exponent with
    | none => simp [Numeral.exponentComplete, e] at complete
    | some e' =>
      have none : e'.digits = [] := by simpa [Numeral.exponentComplete, e] using complete
      rw [e, Option.elim_some, Option.elim_some, none] at parts
      rw [Option.elim_some, Option.elim_some, none, List.append_nil]
      exact .malformed parts (List.cons_ne_nil _ _)

/-- Where a digit or a point stands after white space, the token covers the one literal of the text
there and is of its kind. Where a mantissa has a digit and no exponent lacks its digits, there is a
number that the text of the token is read as, so reading it never fails. -/
theorem scan_literal {position : Nat} {text : List Char} {c : Char} {rest : List Char}
    (start : text.dropWhile isBlank = c :: rest) (first : c.isDigit = true ∨ c = '.') :
    ∃ run, (Token.scan position text).1.text = String.ofList run ∧
      run ++ (Token.scan position text).2 = c :: rest ∧
      (Token.scan position text).1.span =
        ⟨position + width (text.takeWhile isBlank),
          position + width (text.takeWhile isBlank) + width run⟩ ∧
      (∀ run' kind, Literal (c :: rest) run' kind ↔
        run' = run ∧ kind = (Token.scan position text).1.kind) ∧
      ∀ mantissa tail front digits, Number.Parts (c :: rest) mantissa tail front digits →
        front = [] ∨ digits ≠ [] →
        ∃ value, Number.read? (mantissa ++ (front ++ digits)) = some value := by
  have first : (c.isDigit || c == '.') = true := by simpa using first
  have literal := literal_numeral rest first
  have token : Token.scan position text =
      (⟨.ofNumeral (Numeral.scan (c :: rest)).1,
        ⟨position + width (text.takeWhile isBlank), position + width (text.takeWhile isBlank) +
          width (Numeral.scan (c :: rest)).1.text⟩,
        String.ofList (Numeral.scan (c :: rest)).1.text⟩, (Numeral.scan (c :: rest)).2) := by
    simp [Token.scan, start, Token.take, first]
  rw [token]
  refine ⟨_, rfl, Numeral.text_scan (c :: rest), rfl, fun run' kind => ⟨fun h => ?_, ?_⟩,
    fun _ _ _ _ => literal.exists_value⟩
  · exact h.unique literal
  · rintro ⟨rfl, rfl⟩
    exact literal

/-- A sign is taken although no digit comes after it. -/
theorem scan_literal_malformed :
    "  7.e+.5".toList.dropWhile isBlank = '7' :: ".e+.5".toList ∧
      (Token.scan 3 "  7.e+.5".toList).1 = ⟨.invalid .malformedNumber, ⟨5, 9⟩, "7.e+"⟩ ∧
      ∀ run kind, Literal "7.e+.5".toList run kind ↔
        run = "7.e+".toList ∧ kind = .invalid .malformedNumber := by
  have token : (Token.scan 3 "  7.e+.5".toList).1 =
      ⟨.invalid .malformedNumber, ⟨5, 9⟩, "7.e+"⟩ := by decide +kernel
  obtain ⟨run, text, -, -, only, -⟩ :=
    @scan_literal 3 "  7.e+.5".toList '7' ".e+.5".toList (by decide) (.inl rfl)
  rw [token] at text only
  obtain rfl : run = "7.e+".toList := by
    rw [show "7.e+" = String.ofList run from text, String.toList_ofList]
  exact ⟨by decide, token, only⟩

end Formula
