import Formula.Arithmetic
import Formula.Proofs.Doubles

/-!
# The smallest and the largest of many values

`minimum` and `maximum` go through the values and keep one of two at each step: the one
with the lower standing, or the one with the higher. `Picks` says this of the step, with
the key by which the step picks. From it follows by induction what a whole run keeps:
`nan` if it meets it, and otherwise a value whose key is not above any other. A number
is not above the key of what is kept if and only if it is not above the key of any value,
and this does not depend on the order of the values, nor on whether some of them have
been replaced by what is kept of them.
-/

namespace Formula.Arithmetic

open Number (nan infinity standing)

/-- The same double, or zero both times, with either sign. -/
def UpToZero (x y : Float) : Prop :=
  x = y ∨ (x == 0) = true ∧ (y == 0) = true

/-- What is said of the smallest or the largest of many values: it is `nan` if and only if one of
them is, there is a value for no values, and for others it is one of them that is not beyond
any. Neither their order matters, nor whether some have been replaced by the extreme one of
them. -/
structure Extreme (extreme : List Float → Float) (start : Float) (le : Float → Float → Prop) :
    Prop where
  isNaN_iff : ∀ values, (extreme values).isNaN = true ↔ ∃ v ∈ values, v.isNaN = true
  empty : extreme [] = start
  least : ∀ values, values ≠ [] → (∀ v ∈ values, v.isNaN = false) →
    extreme values ∈ values ∧ ∀ v ∈ values, le (extreme values) v
  reordered : ∀ values others, values.Perm others →
    UpToZero (extreme values) (extreme others)
  replaced : ∀ values part rest others, values.Perm (part ++ rest) →
    others.Perm (extreme part :: rest) → UpToZero (extreme values) (extreme others)

/-- A step keeps `nan`, and otherwise the one of two values with the lower key. -/
structure Picks (key : Float → Int) (pick : Float → Float → Float) : Prop where
  isNaN_iff : ∀ x y, (pick x y).isNaN = true ↔ x.isNaN = true ∨ y.isNaN = true
  chooses : ∀ x y, x.isNaN = false → y.isNaN = false →
    pick x y = x ∧ key x ≤ key y ∨ pick x y = y ∧ key y ≤ key x

/-! ## The steps -/

theorem Picks.of_before {key : Float → Int} {before : Float → Float → Prop}
    [∀ x y, Decidable (before x y)]
    (h : ∀ x y, x.isNaN = false → y.isNaN = false → (before y x ↔ key y < key x)) :
    Picks key fun x y => if x.isNaN || y.isNaN then nan else if before y x then y else x where
  isNaN_iff x y := by
    cases hx : x.isNaN with
    | true => simp only [Bool.true_or, if_true, true_or, iff_true]; decide
    | false =>
      cases hy : y.isNaN with
      | true => simp only [Bool.or_true, if_true, or_true, iff_true]; decide
      | false =>
        simp only [Bool.or_self, Bool.false_eq_true, if_false, or_self, iff_false]
        split <;> simp only [hx, hy, Bool.false_eq_true, not_false_eq_true]
  chooses x y hx hy := by
    simp only [hx, hy, Bool.or_self, Bool.false_eq_true, if_false, h x y hx hy]
    split
    · exact .inr ⟨rfl, by omega⟩
    · exact .inl ⟨rfl, by omega⟩

theorem picks_lesser : Picks standing lesser :=
  .of_before fun _ _ hx hy => Number.lt_iff hy hx

theorem picks_greater : Picks (fun x => -standing x) greater :=
  .of_before fun _ _ hx hy => (Number.lt_iff hx hy).trans Int.neg_lt_neg_iff.symm

/-! ## The runs -/

namespace Picks

variable {key : Float → Int} {pick : Float → Float → Float} (h : Picks key pick)
include h

/-- Once met, `nan` stays. -/
theorem isNaN_foldl (values : List Float) (first : Float) :
    (values.foldl pick first).isNaN = true ↔ ∃ v ∈ first :: values, v.isNaN = true := by
  induction values generalizing first with
  | nil => simp only [List.foldl_nil, List.mem_singleton, exists_eq_left]
  | cons second values ih =>
    simp only [List.foldl_cons, ih, List.mem_cons, exists_eq_or_imp, h.isNaN_iff, or_assoc]

/-- A step from a number to a number gives a number. -/
theorem number {x y : Float} (hx : x.isNaN = false) (hy : y.isNaN = false) :
    (pick x y).isNaN = false := by
  obtain ⟨kept, -⟩ | ⟨kept, -⟩ := h.chooses x y hx hy <;> rw [kept] <;> assumption

theorem foldl_mem (values : List Float) (first : Float)
    (numbers : ∀ v ∈ first :: values, v.isNaN = false) :
    values.foldl pick first ∈ first :: values := by
  induction values generalizing first with
  | nil => simp
  | cons second values ih =>
    simp only [List.forall_mem_cons] at numbers
    obtain ⟨hx, hy, others⟩ := numbers
    have last := ih (pick first second) (List.forall_mem_cons.mpr ⟨h.number hx hy, others⟩)
    obtain ⟨kept, -⟩ | ⟨kept, -⟩ := h.chooses first second hx hy <;> rw [kept] at last <;>
      simp only [List.foldl_cons, kept, List.mem_cons] at last ⊢ <;> tauto

/-- What is not above the key of what is kept is what is not above any key. -/
theorem le_key_foldl_iff (values : List Float) (first : Float)
    (numbers : ∀ v ∈ first :: values, v.isNaN = false) (r : Int) :
    r ≤ key (values.foldl pick first) ↔ ∀ v ∈ first :: values, r ≤ key v := by
  induction values generalizing first with
  | nil => simp
  | cons second values ih =>
    simp only [List.forall_mem_cons] at numbers ih ⊢
    obtain ⟨hx, hy, others⟩ := numbers
    have both : r ≤ key (pick first second) ↔ r ≤ key first ∧ r ≤ key second := by
      obtain ⟨kept, least⟩ | ⟨kept, least⟩ := h.chooses first second hx hy <;> rw [kept] <;> omega
    rw [List.foldl_cons, ih _ ⟨h.number hx hy, others⟩, both, and_assoc]

variable {start : Float} (number : start.isNaN = false)
include number

theorem isNaN_run (values : List Float) :
    (values.foldl pick start).isNaN = true ↔ ∃ v ∈ values, v.isNaN = true := by
  simp only [h.isNaN_foldl, List.mem_cons, exists_eq_or_imp, number, Bool.false_eq_true, false_or]

theorem number_run (values : List Float) :
    (values.foldl pick start).isNaN = false ↔ ∀ v ∈ values, v.isNaN = false := by
  simp only [Bool.eq_false_iff, Ne, h.isNaN_run number, not_exists, not_and]

theorem le_key_run_iff {values : List Float} (numbers : ∀ v ∈ values, v.isNaN = false) (r : Int) :
    r ≤ key (values.foldl pick start) ↔ r ≤ key start ∧ ∀ v ∈ values, r ≤ key v := by
  rw [h.le_key_foldl_iff _ _ (List.forall_mem_cons.mpr ⟨number, numbers⟩), List.forall_mem_cons]

/-- The same is kept of two lists, if one holds `nan` whenever the other does and the keys of
both have the same bounds. -/
theorem upToZero_run
    (same : ∀ x y, x.isNaN = false → y.isNaN = false → key x = key y → UpToZero x y)
    {values others : List Float}
    (none : (∀ v ∈ values, v.isNaN = false) ↔ ∀ v ∈ others, v.isNaN = false)
    (bounds : (∀ v ∈ values, v.isNaN = false) → ∀ r ≤ key start,
      (∀ v ∈ values, r ≤ key v) ↔ ∀ v ∈ others, r ≤ key v) :
    UpToZero (values.foldl pick start) (others.foldl pick start) := by
  by_cases numbers : ∀ v ∈ values, v.isNaN = false
  · have others_numbers := none.mp numbers
    refine same _ _ ((h.number_run number _).mpr numbers)
      ((h.number_run number _).mpr others_numbers) (eq_of_forall_le_iff fun r => ?_)
    rw [h.le_key_run_iff number numbers, h.le_key_run_iff number others_numbers]
    exact and_congr_right (bounds numbers r)
  · refine .inl (Number.eq_of_isNaN ?_ ?_)
    · rwa [← Bool.not_eq_false, h.number_run number]
    · rwa [← Bool.not_eq_false, h.number_run number, ← none]

/-- A run that starts at the value with the highest key keeps an extreme value, if the values
with one key are the same up to the sign of zero. -/
theorem extreme {le : Float → Float → Prop}
    (highest : ∀ x, key x ≤ key start) (alone : ∀ x, key x = key start → x = start)
    (same : ∀ x y, x.isNaN = false → y.isNaN = false → key x = key y → UpToZero x y)
    (key_le : ∀ x y, x.isNaN = false → y.isNaN = false → key x ≤ key y → le x y) :
    Extreme (fun values => values.foldl pick start) start le where
  isNaN_iff := h.isNaN_run number
  empty := rfl
  least values some numbers := by
    have low := ((h.le_key_run_iff number numbers _).mp (Int.le_refl _)).2
    have kept := (h.number_run number values).mpr numbers
    refine ⟨?_, fun v hv => key_le _ _ kept (numbers v hv) (low v hv)⟩
    have among := h.foldl_mem values start (List.forall_mem_cons.mpr ⟨number, numbers⟩)
    obtain first | later := List.mem_cons.mp among
    · -- If the start is kept, no value has a lower key, so each of them is the start.
      obtain ⟨v, hv⟩ := List.exists_mem_of_ne_nil values some
      have high := low v hv
      rw [first] at high ⊢
      rwa [← alone v (Int.le_antisymm (highest v) high)]
    · exact later
  reordered values others perm := by
    refine h.upToZero_run number same ?_ fun _ r _ => ?_ <;> simp only [perm.mem_iff]
  replaced values part rest others perm perm' := by
    refine h.upToZero_run number same ?_ fun numbers r low => ?_
    · simp only [perm.mem_iff, perm'.mem_iff, List.forall_mem_cons, List.forall_mem_append,
        h.number_run number]
    · simp only [perm.mem_iff, List.forall_mem_append] at numbers
      simp only [perm.mem_iff, perm'.mem_iff, List.forall_mem_cons, List.forall_mem_append,
        h.le_key_run_iff number numbers.1, low, true_and]

end Picks

/-- The smallest of many values is `nan` if one of them is, and otherwise one that is not above
any; the largest is one that is not below any. -/
theorem extreme_minimum_maximum :
    Extreme minimum infinity (· ≤ ·) ∧ Extreme maximum (-infinity) (· ≥ ·) := by
  have within (x : Float) := abs_le.mp (Number.abs_standing_le x)
  have top := Number.standing_infinity
  have bottom := Number.standing_neg_infinity
  constructor
  · refine picks_lesser.extreme (by decide +kernel) (fun x => ?_) (fun x => ?_)
      (fun x y => Number.eq_or_zero) (fun x y hx hy => (Number.le_iff hx hy).mpr)
    · exact top ▸ (within x).2
    · exact Number.eq_of_standing (by decide +kernel)
  · refine picks_greater.extreme (by decide +kernel) (fun x => ?_) (fun x equal => ?_)
      (fun x y hx hy equal => ?_) (fun x y hx hy low => ?_)
    · have low := (within x).1
      omega
    · exact Number.eq_of_standing (by decide +kernel) (Int.neg_inj.mp equal)
    · exact Number.eq_or_zero hx hy (Int.neg_inj.mp equal)
    · exact (Number.le_iff hy hx).mpr (Int.neg_le_neg_iff.mp low)

end Formula.Arithmetic
