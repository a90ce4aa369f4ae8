import Formula.Number.Layout
import Formula.Proofs.Doubles

/-!
# The plain text of a number

The plain text of a double determines it (`Layout.write_plain_injective`). A text with a point
tells a fraction, whose upper part is the number that its digits make and whose lower part is a
power of ten. What is written for a size reads back as it: a decimal is only taken if it does, the
decimal that is the size itself does, and to leave out the zeros at the end keeps the fraction.
The decimals that read back as a size are between two ends, and those of a larger size are above
them: if the sizes are next to each other they have one end in common, but one of their mantissas
is odd, and then it does not belong to both.
-/

namespace Formula.Number

/-! ## Fractions -/

namespace Decimal

/-- As a fraction, a decimal is another one expanded by some number. -/
def Expands (d d' : Decimal) : Prop :=
  ∃ k, 0 < k ∧ d.numerator = k * d'.numerator ∧ d.denominator = k * d'.denominator

theorem Expands.trans {d d' d'' : Decimal} (h : d.Expands d') (h' : d'.Expands d'') :
    d.Expands d'' := by
  obtain ⟨k, some, top, bottom⟩ := h
  obtain ⟨k', some', top', bottom'⟩ := h'
  refine ⟨k * k', Nat.mul_pos some some', ?_, ?_⟩
  · rw [top, top', Nat.mul_assoc]
  · rw [bottom, bottom', Nat.mul_assoc]

/-- A zero at the end of a coefficient counts over the bar if no place is behind the point, and
cancels one of these places if there are some. -/
theorem expands_tenth (coefficient : Nat) (exponent : Int) :
    (Decimal.mk (10 * coefficient) exponent).Expands ⟨coefficient, exponent + 1⟩ := by
  cases exponent with
  | ofNat zeros =>
    refine ⟨1, Nat.one_pos, ?_, ?_⟩
    · show 10 * coefficient * 10 ^ zeros = 1 * (coefficient * 10 ^ (zeros + 1))
      ring
    · have whole : (-(Int.ofNat zeros + 1)).toNat = (-Int.ofNat zeros).toNat := by
        simp only [Int.ofNat_eq_natCast]
        omega
      rw [denominator, denominator, whole, Nat.one_mul]
  | negSucc places =>
    have none : (Int.negSucc places + 1).toNat = 0 := by omega
    have fewer : (-(Int.negSucc places + 1)).toNat = places := by omega
    refine ⟨10, by decide, ?_, ?_⟩
    · rw [numerator, numerator, none]
      exact Nat.mul_assoc ..
    · rw [denominator, denominator, fewer]
      exact (Nat.pow_succ ..).trans (Nat.mul_comm ..)

/-- Without the zeros at its end a decimal is the same fraction. -/
theorem expands_trim (d : Decimal) : d.Expands d.trim := by
  fun_induction trim d with
  | case1 d zero ih =>
    have tens : 10 * (d.coefficient / 10) = d.coefficient := by omega
    have tenth := expands_tenth (d.coefficient / 10) d.exponent
    rw [tens] at tenth
    exact tenth.trans ih
  | case2 d => exact ⟨1, Nat.one_pos, (Nat.one_mul _).symm, (Nat.one_mul _).symm⟩

theorem denominator_pos (d : Decimal) : 0 < d.denominator :=
  Nat.pow_pos (by decide)

end Decimal

/-! ## What reads back -/

namespace Magnitude

variable {x y : Magnitude} {d d' : Decimal}

/-- Whether a decimal reads back depends on its fraction only. -/
theorem readsBack_of_expands (x : Magnitude) (h : d.Expands d') :
    x.readsBack d = x.readsBack d' := by
  obtain ⟨k, some, top, bottom⟩ := h
  have low : x.lowest * (k * d'.denominator) = k * (x.lowest * d'.denominator) :=
    Nat.mul_left_comm ..
  have high : x.highest * (k * d'.denominator) = k * (x.highest * d'.denominator) :=
    Nat.mul_left_comm ..
  simp only [readsBack, top, bottom, low, high, Nat.mul_assoc k, Nat.mul_le_mul_left_iff some,
    Nat.mul_lt_mul_left some]

/-- A size over zero lies between its ends. -/
theorem between (some : x.mantissa ≠ 0) : x.lowest < x.inQuarters ∧ x.inQuarters < x.highest := by
  have one : 0 < Nat.pow 2 x.shift := Nat.pow_pos (by decide)
  have least : Nat.pow 2 x.shift ≤ x.units := Nat.le_mul_of_pos_left _ (Nat.pos_of_ne_zero some)
  simp only [lowest, highest, inQuarters]
  split <;> omega

/-- A decimal that is the size itself reads back. -/
theorem readsBack_self (some : x.mantissa ≠ 0)
    (point : d.numerator * quarters = x.inQuarters * d.denominator) : x.readsBack d = true := by
  obtain ⟨low, high⟩ := between some
  have below := Nat.mul_lt_mul_of_pos_right low d.denominator_pos
  have above := Nat.mul_lt_mul_of_pos_right high d.denominator_pos
  rw [readsBack, point]
  split <;> simp only [Bool.and_eq_true, decide_eq_true_eq] <;> omega

/-- A number of units, each of which is `5^n · 10^-n`, in quarters. -/
theorem point_of_units {n units : Nat} (digits : d.coefficient = units * Nat.pow 5 n)
    (places : d.exponent = -n) :
    d.numerator * Nat.pow 2 (n + 2) = 4 * units * d.denominator := by
  have ten : 10 ^ n = 2 ^ n * 5 ^ n := Nat.mul_pow 2 5 n
  have whole : (-(n : Int)).toNat = 0 := by omega
  rw [Decimal.numerator, Decimal.denominator, digits, places, Int.neg_neg, Int.toNat_natCast,
    whole]
  simp only [Nat.pow_eq, Nat.pow_add, ten]
  ring

theorem readsBack_exactly (some : x.mantissa ≠ 0) : x.readsBack x.exactly = true := by
  apply readsBack_self some
  have places : (-1074 : Int) = -(1074 : Nat) := rfl
  have behind : 1076 = 1074 + 2 := rfl
  unfold exactly quarters
  rw [places, behind]
  -- The powers are too large to be computed.
  generalize 1074 = n
  exact point_of_units rfl rfl

/-- What is written for a size over zero reads back as it. -/
theorem readsBack_shortest (some : x.mantissa ≠ 0) : x.readsBack x.shortest = true := by
  rw [shortest, ← x.readsBack_of_expands (Decimal.expands_trim _)]
  cases hit : (List.range 17).findSome? fun (n : Nat) => x.onGrid (x.decade - n) with
  | none => exact readsBack_exactly some
  | some d =>
    obtain ⟨n, -, found⟩ := List.exists_of_findSome?_eq_some hit
    exact readsBack_of_onGrid found

/-- What reads back as a size lies between its ends. An end itself reads back only if the mantissa
is even. -/
theorem readsBack_ends (h : x.readsBack d = true) :
    x.lowest * d.denominator ≤ d.numerator * quarters ∧
      d.numerator * quarters ≤ x.highest * d.denominator ∧
      (x.mantissa % 2 = 0 ∨ x.lowest * d.denominator < d.numerator * quarters ∧
        d.numerator * quarters < x.highest * d.denominator) := by
  rw [readsBack] at h
  split at h <;> simp only [Bool.and_eq_true, decide_eq_true_eq] at h
  · exact ⟨h.1, h.2, .inl ‹_›⟩
  · exact ⟨Nat.le_of_lt h.1, Nat.le_of_lt h.2, .inr h⟩

theorem lowest_eq (x : Magnitude) :
    x.mantissa = Exact.fractions ∧ 0 < x.shift ∧ x.lowest = 4 * x.units - Nat.pow 2 x.shift ∨
      ¬ (x.mantissa = Exact.fractions ∧ 0 < x.shift) ∧
        x.lowest = 4 * x.units - 2 * Nat.pow 2 x.shift := by
  rw [lowest, inQuarters]
  split
  · exact .inl ⟨‹_ ∧ _›.1, ‹_ ∧ _›.2, rfl⟩
  · exact .inr ⟨‹_›, rfl⟩

/-- What reads back as a size is below what reads back as a larger one, or they meet at an end, and
then one of the mantissas is odd. -/
theorem Canonical.apart (hx : x.Canonical) (hy : y.Canonical) (less : x.place < y.place) :
    x.highest < y.lowest ∨
      x.highest = y.lowest ∧ (x.mantissa % 2 = 1 ∨ y.mantissa % 2 = 1) := by
  have one : 0 < Nat.pow 2 x.shift := Nat.pow_pos (by decide)
  have lowest := y.lowest_eq
  have order := (hx.place_lt_iff hy).mp less
  obtain ⟨fits, leads, -⟩ := hx
  obtain ⟨-, leads', -⟩ := hy
  have times {a b : Nat} (h : a ≤ b) (n : Nat) := Nat.mul_le_mul_right n h
  simp only [highest, inQuarters, units, Exact.fractions] at *
  obtain shift | ⟨shift, mantissa⟩ := order
  · have wider : 2 * Nat.pow 2 x.shift ≤ Nat.pow 2 y.shift := by
      rw [Nat.mul_comm, Nat.pow_eq, ← Nat.pow_succ]
      exact Nat.pow_le_pow_right (by decide) shift
    have leading := leads' (by omega)
    have small := times (Nat.le_sub_one_of_lt fits) (Nat.pow 2 x.shift)
    obtain ⟨lead, -, lowest⟩ | ⟨more, lowest⟩ := lowest
    · -- Below a power of two the largest mantissa is odd.
      rw [lead] at lowest
      obtain odd | even : x.mantissa % 2 = 1 ∨ x.mantissa ≤ 9007199254740990 := by omega
      · omega
      · have := times even (Nat.pow 2 x.shift)
        omega
    · have large : 4503599627370497 ≤ y.mantissa := by omega
      have := times large (Nat.pow 2 y.shift)
      omega
  · rw [shift] at one ⊢
    obtain next | later : y.mantissa = x.mantissa + 1 ∨ x.mantissa + 2 ≤ y.mantissa := by omega
    · rw [next, Nat.add_mul] at lowest
      omega
    · have := times later (Nat.pow 2 y.shift)
      rw [Nat.add_mul] at this
      omega

/-- No decimal reads back as two sizes. -/
theorem Canonical.eq_of_readsBack (hx : x.Canonical) (hy : y.Canonical)
    (h : x.readsBack d = true) (h' : y.readsBack d = true) : x = y := by
  have not_lt {x y : Magnitude} (hx : x.Canonical) (hy : y.Canonical)
      (h : x.readsBack d = true) (h' : y.readsBack d = true) : ¬ x.place < y.place := by
    intro less
    obtain ⟨-, below, inside⟩ := readsBack_ends h
    obtain ⟨above, -, inside'⟩ := readsBack_ends h'
    obtain apart | ⟨meet, odd⟩ := hx.apart hy less
    · have := Nat.mul_lt_mul_of_pos_right apart d.denominator_pos
      omega
    · rw [meet] at below inside
      omega
  have lower := (hx.place_lt_iff hy).not.mp (not_lt hx hy h h')
  have upper := (hy.place_lt_iff hx).not.mp (not_lt hy hx h' h)
  obtain ⟨mantissa, shift⟩ := x
  obtain ⟨mantissa', shift'⟩ := y
  simp only [Magnitude.mk.injEq] at *
  omega

/-- A size as it is written, zero included. -/
def decimal (x : Magnitude) : Decimal :=
  if x.mantissa = 0 then ⟨0, 0⟩ else x.shortest

theorem Canonical.readsBack_decimal (hx : x.Canonical) : x.readsBack x.decimal = true := by
  rw [decimal]
  split
  · rename_i zero
    have shift : x.shift = 0 := by
      have := hx.fractions_le
      simp only [Exact.fractions] at this
      omega
    obtain ⟨mantissa, shift⟩ := x
    subst zero shift
    decide +kernel
  · exact readsBack_shortest ‹_›

end Magnitude

/-! ## Digits and a point -/

namespace Decimal

/-- The number that the digits of a text make, the point left out. -/
def digitsOf (text : List Char) : Nat :=
  Nat.ofDigitChars 10 (text.filter (· != '.')) 0

/-- How many characters are behind the point of a text. -/
def placesOf (text : List Char) : Nat :=
  (text.dropWhile (· != '.')).length - 1

theorem ne_point_of_isDigit {c : Char} (h : c.isDigit = true) : (c != '.') = true := by
  rw [bne_iff_ne]
  rintro rfl
  cases h

section

variable {front back : List Char} (hf : ∀ c ∈ front, c.isDigit = true)
  (hb : ∀ c ∈ back, c.isDigit = true)
include hf hb

theorem digitsOf_append :
    digitsOf (front ++ '.' :: back) = Nat.ofDigitChars 10 (front ++ back) 0 := by
  rw [digitsOf, List.filter_append, List.filter_cons_of_neg (by decide),
    List.filter_eq_self.mpr fun c hc => ne_point_of_isDigit (hf c hc),
    List.filter_eq_self.mpr fun c hc => ne_point_of_isDigit (hb c hc)]

omit hb in
theorem placesOf_append : placesOf (front ++ '.' :: back) = back.length := by
  rw [placesOf, List.dropWhile_append_of_pos fun c hc => ne_point_of_isDigit (hf c hc),
    List.dropWhile_cons_of_neg (by decide)]
  rfl

end

variable (d : Decimal)

theorem isDigit_of_mem_digits : ∀ c ∈ d.digits, c.isDigit = true :=
  fun _ => Nat.isDigit_of_mem_toDigits (by decide) (by decide)

theorem ofDigitChars_digits : Nat.ofDigitChars 10 d.digits 0 = d.coefficient :=
  Nat.ofDigitChars_ten_toDigits

theorem isDigit_of_mem_zeros (n : Nat) : ∀ c ∈ List.replicate n '0', c.isDigit = true := by
  intro c hc
  rw [List.eq_of_mem_replicate hc]
  rfl

/-- Without places behind the point there is no point. -/
theorem positional_whole {zeros : Nat} (h : d.exponent = .ofNat zeros) :
    ∃ whole, d.positional [] = whole ∧ (∀ c ∈ whole, c.isDigit = true) ∧
      Nat.ofDigitChars 10 whole 0 = d.coefficient * 10 ^ zeros := by
  refine ⟨d.digits ++ List.replicate zeros '0', ?_, ?_, ?_⟩
  · rw [positional, h]
    exact List.append_nil _
  · exact List.forall_mem_append.mpr ⟨d.isDigit_of_mem_digits, isDigit_of_mem_zeros zeros⟩
  · rw [Nat.ofDigitChars_append, ofDigitChars_digits, Nat.ofDigitChars_replicate_zero,
      Nat.mul_comm]

/-- With places behind the point there are as many characters behind it. -/
theorem positional_parts {places : Nat} (h : d.exponent = .negSucc places) :
    ∃ front back, d.positional [] = front ++ '.' :: back ∧ (∀ c ∈ front, c.isDigit = true) ∧
      (∀ c ∈ back, c.isDigit = true) ∧ back.length = places + 1 ∧
      Nat.ofDigitChars 10 (front ++ back) 0 = d.coefficient := by
  have digit := d.isDigit_of_mem_digits
  by_cases long : places + 1 < d.digits.length
  · refine ⟨d.digits.take (d.digits.length - (places + 1)),
      d.digits.drop (d.digits.length - (places + 1)), ?_,
      fun c hc => digit c (List.mem_of_mem_take hc),
      fun c hc => digit c (List.mem_of_mem_drop hc), ?_, ?_⟩
    · simp only [positional, h, if_pos long]
    · rw [List.length_drop, Nat.sub_sub_self (Nat.le_of_lt long)]
    · rw [List.take_append_drop, ofDigitChars_digits]
  · refine ⟨['0'], List.replicate (places + 1 - d.digits.length) '0' ++ d.digits, ?_,
      List.forall_mem_singleton.mpr rfl,
      List.forall_mem_append.mpr ⟨isDigit_of_mem_zeros _, digit⟩, ?_, ?_⟩
    · simp only [positional, h, if_neg long]
      rfl
    · rw [List.length_append, List.length_replicate, Nat.sub_add_cancel (Nat.not_lt.mp long)]
    · rw [Nat.ofDigitChars_append, Nat.ofDigitChars_append, Nat.ofDigitChars_replicate_zero]
      exact d.ofDigitChars_digits

theorem mem_positional : ∀ c ∈ d.positional [], c.isDigit = true ∨ c = '.' := by
  cases h : d.exponent with
  | ofNat zeros =>
    obtain ⟨whole, text, digit, -⟩ := d.positional_whole h
    rw [text]
    exact fun c hc => .inl (digit c hc)
  | negSucc places =>
    obtain ⟨front, back, text, hf, hb, -⟩ := d.positional_parts h
    rw [text]
    refine List.forall_mem_append.mpr ⟨fun c hc => .inl (hf c hc), ?_⟩
    exact List.forall_mem_cons.mpr ⟨.inr rfl, fun c hc => .inl (hb c hc)⟩

/-- The digits of a decimal are those of its fraction over the bar, and the places behind the point
tell the power of ten under it. -/
theorem positional_read :
    digitsOf (d.positional []) = d.numerator ∧
      Nat.pow 10 (placesOf (d.positional [])) = d.denominator := by
  cases h : d.exponent with
  | ofNat zeros =>
    obtain ⟨whole, text, digit, value⟩ := d.positional_whole h
    have all : ∀ c ∈ whole, (c != '.') = true := fun c hc => ne_point_of_isDigit (digit c hc)
    have none : (-Int.ofNat zeros).toNat = 0 := by
      simp only [Int.ofNat_eq_natCast]
      omega
    rw [text, numerator, denominator, h, digitsOf, placesOf, List.filter_eq_self.mpr all,
      List.dropWhile_eq_nil_iff.mpr all, value, none]
    exact ⟨rfl, rfl⟩
  | negSucc places =>
    obtain ⟨front, back, text, hf, hb, length, value⟩ := d.positional_parts h
    rw [text, numerator, denominator, h, digitsOf_append hf hb, placesOf_append hf, length, value]
    exact ⟨(Nat.mul_one _).symm, rfl⟩

end Decimal

/-- The digits of a size determine it. -/
theorem Magnitude.Canonical.eq_of_positional {x y : Magnitude} (hx : x.Canonical)
    (hy : y.Canonical) (same : x.decimal.positional [] = y.decimal.positional []) : x = y := by
  obtain ⟨top, bottom⟩ := x.decimal.positional_read
  obtain ⟨top', bottom'⟩ := y.decimal.positional_read
  rw [same] at top bottom
  have expands : x.decimal.Expands y.decimal :=
    ⟨1, Nat.one_pos, by rw [← top, top', Nat.one_mul], by rw [← bottom, bottom', Nat.one_mul]⟩
  refine hx.eq_of_readsBack hy ?_ hy.readsBack_decimal
  rw [← x.readsBack_of_expands expands]
  exact hx.readsBack_decimal

/-! ## Plain texts -/

namespace Layout

/-- The plain characters of what a double stands for. -/
def plainly : Exact → List Char
  | .nan => "NaN".toList
  | .infinite negative => characters.signed negative "inf".toList
  | .finite negative size => characters.signed negative (size.decimal.positional [])

theorem characters_plain (x : Float) : plain.characters x = plainly (Exact.ofFloat x) := by
  rw [characters]
  cases Exact.ofFloat x with
  | nan | infinite => rfl
  | finite negative size =>
    simp only [plainly, Magnitude.decimal]
    split <;> rfl

theorem mem_signed {negative : Bool} {text : List Char} {c : Char}
    (h : c ∈ characters.signed negative text) : c = '-' ∨ c ∈ text := by
  cases negative with
  | false => exact .inr h
  | true => exact List.mem_cons.mp h

theorem signed_inj {m n : Bool} {text text' : List Char} (h : '-' ∉ text) (h' : '-' ∉ text')
    (same : characters.signed m text = characters.signed n text') : m = n ∧ text = text' := by
  cases m <;> cases n
  · exact ⟨rfl, same⟩
  · refine absurd ?_ h
    rw [show text = _ from same]
    exact List.mem_cons_self
  · refine absurd ?_ h'
    rw [show text' = _ from same.symm]
    exact List.mem_cons_self
  · exact ⟨rfl, (List.cons.inj same).2⟩

/-- The text of a finite number has digits, perhaps a point and perhaps a sign. -/
theorem mem_plainly_finite {negative : Bool} {size : Magnitude} {c : Char}
    (h : c ∈ plainly (.finite negative size)) : c.isDigit = true ∨ c = '.' ∨ c = '-' := by
  obtain rfl | h := mem_signed h
  · exact .inr (.inr rfl)
  · exact (size.decimal.mem_positional c h).imp_right .inl

/-- What a double stands for is determined by its plain characters. -/
theorem plainly_inj {a b : Exact} (ha : a.Canonical) (hb : b.Canonical)
    (same : plainly a = plainly b) : a = b := by
  have unsigned (size : Magnitude) : '-' ∉ size.decimal.positional [] := fun h =>
    absurd (size.decimal.mem_positional _ h) (by decide)
  have letter {c : Char} {e e' : Exact} (same : plainly e = plainly e') (h : c ∈ plainly e) :
      c ∈ plainly e' := same ▸ h
  cases a with
  | nan =>
    cases b with
    | nan => rfl
    | infinite n => cases n <;> cases same
    | finite => exact absurd (mem_plainly_finite (letter (c := 'N') same (by decide))) (by decide)
  | infinite m =>
    cases b with
    | nan => cases m <;> cases same
    | infinite n => cases m <;> cases n <;> first | rfl | cases same
    | finite =>
      have inside : 'i' ∈ plainly (.infinite m) := by cases m <;> decide
      exact absurd (mem_plainly_finite (letter same inside)) (by decide)
  | finite m x =>
    cases b with
    | nan => exact absurd (mem_plainly_finite (letter (c := 'N') same.symm (by decide))) (by decide)
    | infinite n =>
      have inside : 'i' ∈ plainly (.infinite n) := by cases n <;> decide
      exact absurd (mem_plainly_finite (letter same.symm inside)) (by decide)
    | finite n y =>
      obtain ⟨rfl, text⟩ := signed_inj (unsigned x) (unsigned y) same
      obtain rfl := Magnitude.Canonical.eq_of_positional ha hb text
      rfl

/-- A number is determined by its plain text. -/
theorem write_plain_injective : Function.Injective plain.write := by
  intro x y same
  have text := String.ofList_inj.mp same
  rw [characters_plain, characters_plain] at text
  exact ofFloat_injective (plainly_inj (Exact.canonical x) (Exact.canonical y) text)

-- Digits are written until the text reads back, however large or small the number is.
example : plain.write 0.1 = "0.1" ∧ plain.write (0.1 + 0.2) = "0.30000000000000004" ∧
    plain.write 1e-7 = "0.0000001" ∧ plain.write 1e21 = "1000000000000000000000" := by
  decide +kernel

-- Of two decimals that are equally short and equally near, the larger is written.
example : plain.write 1000000000000000.25 = "1000000000000000.3" := by
  decide +kernel

/-- The plain text of a number is on one line. -/
theorem newline_notMem_plain (x : Float) : '\n' ∉ (plain.write x).toList := by
  rw [write, String.toList_ofList, characters_plain]
  cases Exact.ofFloat x with
  | nan => decide
  | infinite negative => cases negative <;> decide
  | finite => exact fun h => absurd (mem_plainly_finite h) (by decide)

end Layout

end Formula.Number
