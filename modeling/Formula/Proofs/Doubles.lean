import Formula.Number.Exact
import Mathlib

/-!
# The order of doubles

Doubles other than `nan` are compared as whole numbers are. What a double stands for
tells its sign, its shift and its mantissa. Of two sizes the one with the smaller shift
is smaller, and of two with the same shift the one with the smaller mantissa, since the
mantissa takes up all its places as long as the shift can be lowered. So a size has a
*place*, which orders first by shift and then by mantissa, and a double has a *standing*,
its place with its sign.

* `unpack_eq`: what a double stands for is what the operations on doubles take it for.
* `ofFloat_injective`: it determines the double.
* `lt_iff`, `le_iff`, `beq_iff`: comparing doubles is comparing their standings.
* `eq_or_zero`, `eq_of_standing`: the standing determines the double, the zeros and `nan` apart.
* `abs_standing_le`: no double stands beyond the infinities.
-/

namespace Formula.Number

open Float.Model (UnpackedFloat Format)
open Float.Model.UnpackedFloat (Sign unpackMantissa unpackExponent unpackSign)

/-- The sign of a double. -/
def Exact.sign (negative : Bool) : Sign :=
  if negative then .negative else .positive

/-- What a double stands for as a mantissa and a power of two. -/
def Exact.unpacked : Exact → UnpackedFloat
  | .nan => .notANumber
  | .infinite negative => .infinity (sign negative)
  | .finite negative size =>
    if h : size.mantissa = 0 then .zero (sign negative)
    else .finite (sign negative) size.mantissa (size.shift - 1074) (Nat.pos_of_ne_zero h)

section
variable (x : Float)

theorem toNat_mantissa :
    (@unpackMantissa Format.binary64 x.toBits.toBitVec).toNat =
      x.toBits.toNat % Exact.fractions := by
  rw [Float.Model.UnpackedFloat.unpackMantissa_def, BitVec.extractLsb'_toNat]
  simp [Exact.fractions]

theorem toNat_exponent :
    (@unpackExponent Format.binary64 x.toBits.toBitVec).toNat =
      x.toBits.toNat % Exact.magnitudes / Exact.fractions := by
  rw [Float.Model.UnpackedFloat.unpackExponent_def, BitVec.extractLsb'_toNat]
  simp [Exact.fractions, Exact.magnitudes, Nat.shiftRight_eq_div_pow]
  omega

theorem sign_eq :
    Sign.ofBitVec (@unpackSign Format.binary64 x.toBits.toBitVec) =
      Exact.sign (decide (Exact.magnitudes ≤ x.toBits.toNat)) := by
  have bound : x.toBits.toNat < 2 ^ 64 := x.toBits.toNat_lt
  have bit : (@unpackSign Format.binary64 x.toBits.toBitVec).toNat =
      x.toBits.toNat / Exact.magnitudes := by
    rw [Float.Model.UnpackedFloat.unpackSign_def, BitVec.extractLsb'_toNat]
    simp [Exact.magnitudes, Nat.shiftRight_eq_div_pow]
    omega
  have zero : (@unpackSign Format.binary64 x.toBits.toBitVec = 0#1) ↔
      ¬ Exact.magnitudes ≤ x.toBits.toNat := by
    rw [← BitVec.toNat_inj, bit]
    simp [Exact.magnitudes]
  simp only [Sign.ofBitVec, Exact.sign, zero, decide_eq_true_eq]
  split <;> simp_all

theorem unpack_eq : x.toModel.unpack = (Exact.ofFloat x).unpacked := by
  have mantissa := toNat_mantissa x
  have exponent := toNat_exponent x
  have sign := sign_eq x
  have small := (@unpackExponent Format.binary64 x.toBits.toBitVec).isLt
  have leading : (1#1 ++ @unpackMantissa Format.binary64 x.toBits.toBitVec).toNat =
      Exact.fractions + x.toBits.toNat % Exact.fractions := by
    have below := (@unpackMantissa Format.binary64 x.toBits.toBitVec).isLt
    have added := Nat.two_pow_add_eq_or_of_lt below 1
    rw [BitVec.toNat_append, ← mantissa]
    simpa [Exact.fractions, Nat.shiftLeft_eq] using added.symm
  show UnpackedFloat.unpack Format.binary64 x.toBits.toBitVec = _
  rw [exponent] at small
  simp only [UnpackedFloat.unpack, ← BitVec.toNat_inj, mantissa, exponent, sign, leading,
    Exact.ofFloat]
  generalize x.toBits.toNat % Exact.magnitudes / Exact.fractions = e at small
  have bias : (Format.binary64.exponentBias : Int) = 1023 := rfl
  by_cases top : e = 2047
  · by_cases none : x.toBits.toNat % Exact.fractions = 0 <;> simp [top, none, Exact.unpacked]
  by_cases bottom : e = 0
  · by_cases none : x.toBits.toNat % Exact.fractions = 0 <;>
      simp [bottom, none, Exact.unpacked, bias]
  · have finite : e < 2047 := by simp at small; omega
    simp [top, bottom, finite, Exact.unpacked, bias, Exact.fractions]
    omega
end

/-- Doubles that stand for the same are the same. -/
theorem ofFloat_injective : Function.Injective Exact.ofFloat := by
  intro x y same
  have unpacked := (unpack_eq x).trans ((congrArg Exact.unpacked same).trans (unpack_eq y).symm)
  have bits := (UnpackedFloat.unpack_inj_of_valid x.toModel.valid y.toModel.valid).mp unpacked
  exact Float.toBits_inj.mp (UInt64.toBitVec_inj.mp bits)

/-- What the magnitude of a finite double is like: the mantissa takes up all its places unless
the shift is as small as can be. -/
structure Magnitude.Canonical (a : Magnitude) : Prop where
  mantissa_lt : a.mantissa < 2 * Exact.fractions
  fractions_le : 0 < a.shift → Exact.fractions ≤ a.mantissa
  shift_le : a.shift ≤ 2045

theorem canonical_ofFloat {x : Float} {negative : Bool} {size : Magnitude}
    (h : Exact.ofFloat x = .finite negative size) : size.Canonical := by
  have below : x.toBits.toNat % Exact.fractions < Exact.fractions := Nat.mod_lt _ (by decide)
  simp only [Exact.ofFloat] at h
  split at h
  · cases h
    exact ⟨by simp only; omega, fun some => absurd some (Nat.lt_irrefl 0), Nat.zero_le _⟩
  · split at h
    · cases h
      exact ⟨by simp only; omega, fun _ => Nat.le_add_right _ _, by simp only; omega⟩
    · split at h <;> cases h

namespace Magnitude

variable {a b : Magnitude}

/-- Where a size stands among the sizes of doubles. -/
def place (a : Magnitude) : Nat :=
  a.shift * Exact.fractions + a.mantissa

/-- The place of what is larger than every size. -/
def placeOfInfinity : Nat :=
  2047 * Exact.fractions

theorem Canonical.place_lt (h : a.Canonical) : a.place < placeOfInfinity := by
  obtain ⟨mantissa, -, shift⟩ := h
  simp only [place, placeOfInfinity, Exact.fractions] at *
  omega

/-- The order of sizes is that of their shifts, and of their mantissas if these are the same. -/
theorem Canonical.place_lt_iff (ha : a.Canonical) (hb : b.Canonical) :
    a.place < b.place ↔ a.shift < b.shift ∨ a.shift = b.shift ∧ a.mantissa < b.mantissa := by
  obtain ⟨ma, la, -⟩ := ha
  obtain ⟨mb, lb, -⟩ := hb
  simp only [place, Exact.fractions] at *
  omega

theorem Canonical.place_eq_zero_iff (h : a.Canonical) : a.place = 0 ↔ a.mantissa = 0 := by
  obtain ⟨-, some, -⟩ := h
  simp only [place, Exact.fractions] at *
  omega

theorem Canonical.compare_eq (ha : a.Canonical) (hb : b.Canonical) :
    (compare (a.shift - 1074 : Int) (b.shift - 1074)).then (compare a.mantissa b.mantissa) =
      compare a.place b.place := by
  have less := ha.place_lt_iff hb
  have more := hb.place_lt_iff ha
  simp only [Int.compare_eq_ite_lt, Nat.compare_eq_ite_lt, less, more]
  split_ifs <;> first | rfl | omega

end Magnitude

namespace Exact

/-- A size with a sign. -/
def signed (negative : Bool) (size : Nat) : Int :=
  if negative then -size else size

/-- Where a number stands among all numbers. The zeros stand in one place. -/
def standing : Exact → Int
  | nan => 0
  | infinite negative => signed negative Magnitude.placeOfInfinity
  | finite negative size => signed negative size.place

/-- What a double can stand for. -/
def Canonical : Exact → Prop
  | finite _ size => size.Canonical
  | _ => True

theorem canonical (x : Float) : (ofFloat x).Canonical := by
  cases h : ofFloat x with
  | finite => exact canonical_ofFloat h
  | nan | infinite => trivial

@[simp]
theorem abs_signed (negative : Bool) (size : Nat) : |signed negative size| = size := by
  cases negative <;> simp [signed]

/-- Sizes with signs are compared by their signs and, if these agree, by the sizes. -/
theorem compare_signed (m n : Bool) (a b : Nat) :
    compare (signed m a) (signed n b) =
      match m, n with
      | false, false => compare a b
      | true, true => (compare a b).swap
      | true, false => if a = 0 ∧ b = 0 then .eq else .lt
      | false, true => if a = 0 ∧ b = 0 then .eq else .gt := by
  cases m <;> cases n <;>
    simp only [signed, Int.compare_eq_ite_lt, Nat.compare_eq_ite_lt] <;> split_ifs <;>
      first | rfl | omega

/-- Numbers are compared as their places are. -/
theorem compare_unpacked {a b : Exact} (ha : a.Canonical) (hb : b.Canonical) (na : a ≠ nan)
    (nb : b ≠ nan) : a.unpacked.compare b.unpacked = some (compare a.standing b.standing) := by
  have some : Magnitude.placeOfInfinity ≠ 0 := by decide
  cases a with
  | nan => exact absurd rfl na
  | infinite m =>
    cases b with
    | nan => exact absurd rfl nb
    | infinite n => cases m <;> cases n <;> decide +kernel
    | finite n b =>
      have above : compare Magnitude.placeOfInfinity b.place = .gt :=
        compare_gt_iff_gt.mpr (Magnitude.Canonical.place_lt hb)
      simp only [unpacked, standing, compare_signed]
      split <;> cases m <;> cases n <;>
        simp [UnpackedFloat.compare, sign, above, some]
  | finite m a =>
    cases b with
    | nan => exact absurd rfl nb
    | infinite n =>
      have below : compare a.place Magnitude.placeOfInfinity = .lt :=
        compare_lt_iff_lt.mpr (Magnitude.Canonical.place_lt ha)
      simp only [unpacked, standing, compare_signed]
      split <;> cases m <;> cases n <;>
        simp [UnpackedFloat.compare, sign, below, some]
    | finite n b =>
      have pa := Magnitude.Canonical.place_eq_zero_iff ha
      have pb := Magnitude.Canonical.place_eq_zero_iff hb
      have above : b.place ≠ 0 → compare 0 b.place = .lt := fun some =>
        compare_lt_iff_lt.mpr (Nat.pos_of_ne_zero some)
      have below : a.place ≠ 0 → compare a.place 0 = .gt := fun some =>
        compare_gt_iff_gt.mpr (Nat.pos_of_ne_zero some)
      simp only [unpacked, standing, compare_signed]
      split <;> split <;> cases m <;> cases n <;>
        simp_all [UnpackedFloat.compare, sign, Magnitude.Canonical.compare_eq ha hb]

end Exact

/-- Where a double stands among all numbers. -/
def standing (x : Float) : Int :=
  (Exact.ofFloat x).standing

section
variable {x y : Float}

theorem isNaN_iff : x.isNaN = true ↔ Exact.ofFloat x = .nan := by
  show x.toModel.unpack.isNaN = true ↔ _
  rw [unpack_eq, UnpackedFloat.isNaN_iff]
  cases Exact.ofFloat x with
  | nan => simp [Exact.unpacked]
  | infinite => simp [Exact.unpacked]
  | finite negative size =>
    simp only [Exact.unpacked]
    split <;> simp

theorem compare_eq (hx : x.isNaN = false) (hy : y.isNaN = false) :
    x.toModel.unpack.compare y.toModel.unpack = some (compare (standing x) (standing y)) := by
  rw [unpack_eq, unpack_eq]
  refine Exact.compare_unpacked (Exact.canonical x) (Exact.canonical y) ?_ ?_
  · rw [Ne, ← isNaN_iff, hx]; exact Bool.false_ne_true
  · rw [Ne, ← isNaN_iff, hy]; exact Bool.false_ne_true

theorem lt_iff (hx : x.isNaN = false) (hy : y.isNaN = false) : x < y ↔ standing x < standing y := by
  have compared := compare_eq hx hy
  show decide (x.toModel.unpack.lt y.toModel.unpack = true) = true ↔ _
  rw [UnpackedFloat.lt, compared]
  simp [compare_lt_iff_lt]

theorem le_iff (hx : x.isNaN = false) (hy : y.isNaN = false) : x ≤ y ↔ standing x ≤ standing y := by
  have compared := compare_eq hx hy
  show decide (x.toModel.unpack.le y.toModel.unpack = true) = true ↔ _
  rw [UnpackedFloat.le, compared]
  simp [Std.isLE_compare]

theorem beq_iff (hx : x.isNaN = false) (hy : y.isNaN = false) :
    (x == y) = true ↔ standing x = standing y := by
  have compared := compare_eq hx hy
  show x.toModel.unpack.beq y.toModel.unpack = true ↔ _
  rw [UnpackedFloat.beq, compared]
  simp

/-- There is one double that is no number. -/
theorem eq_of_isNaN (hx : x.isNaN = true) (hy : y.isNaN = true) : x = y :=
  ofFloat_injective ((isNaN_iff.mp hx).trans (isNaN_iff.mp hy).symm)

/-- Doubles with the same standing are the same, the two zeros apart. -/
theorem eq_or_zero (hx : x.isNaN = false) (hy : y.isNaN = false)
    (same : standing x = standing y) : x = y ∨ (x == 0) = true ∧ (y == 0) = true := by
  have equal := (beq_iff hx hy).mpr same
  obtain ⟨-, -, rfl | ⟨rfl, rfl⟩ | ⟨rfl, rfl⟩⟩ := Float.beq_iff_ne_nan_and_eq.mp equal
  · exact .inl rfl
  · exact .inr (by decide)
  · exact .inr (by decide)

theorem abs_standing_le (x : Float) : |standing x| ≤ Magnitude.placeOfInfinity := by
  have canonical := Exact.canonical x
  unfold standing
  generalize Exact.ofFloat x = e at canonical
  cases e with
  | nan => simp [Exact.standing]
  | infinite negative => simp [Exact.standing]
  | finite negative size =>
    have below := Magnitude.Canonical.place_lt canonical
    simp only [Exact.standing, Exact.abs_signed]
    omega

theorem standing_infinity : standing infinity = Magnitude.placeOfInfinity := by
  decide +kernel

theorem standing_neg_infinity : standing (-infinity) = -Magnitude.placeOfInfinity := by
  decide +kernel

/-- Away from the middle, doubles with the same standing are the same. -/
theorem eq_of_standing (some : standing y ≠ 0) (same : standing x = standing y) : x = y := by
  have number {z : Float} (some : standing z ≠ 0) : z.isNaN = false := by
    rw [Bool.eq_false_iff, Ne, isNaN_iff]
    intro none
    exact some (by rw [standing, none]; rfl)
  obtain equal | ⟨-, zero⟩ := eq_or_zero (number (same ▸ some)) (number some) same
  · exact equal
  · exact absurd ((beq_iff (number some) (by decide)).mp zero) some

end

end Formula.Number
