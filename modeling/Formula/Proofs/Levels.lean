import Formula.Token.Basic

/-!
# Logs of levels

While a text is read, levels are opened and closed. The log of a reading holds these moves in
their order (`Move`), and its height is how many more levels are open after it than before. A
level that could not be opened counts as open, since nobody closes it.

A reading that is not refused a level leaves a balanced log, and one that is refused leaves a
log that is cut (`Balanced`, `Cut`). With fewer levels a balanced log runs over at its first
move above the limit (`overflow_eq_none_iff`, `overflow_eq_some`).
-/

namespace Formula

/-- What happens to the levels that are open. -/
inductive Move where
  /-- A level is opened for what starts with a token. -/
  | opened (first : Token)
  /-- A level is asked for what starts with a token, and is not to be had. -/
  | refused (first : Token)
  /-- The level opened last is closed. -/
  | closed

/-- How many more levels are open after a move. -/
def Move.shift : Move → Int
  | opened _ => 1
  | refused _ => 1
  | closed => -1

/-- How many more levels are open after some moves. -/
def height : List Move → Int
  | [] => 0
  | move :: rest => move.shift + height rest

@[simp] theorem height_nil : height [] = 0 := rfl

@[simp] theorem height_cons (move : Move) (log : List Move) :
    height (move :: log) = move.shift + height log := rfl

@[simp] theorem height_append (a b : List Move) : height (a ++ b) = height a + height b := by
  induction a with
  | nil => rw [List.nil_append, height_nil, Int.zero_add]
  | cons move rest ih => rw [List.cons_append, height_cons, height_cons, ih, Int.add_assoc]

/-- Levels are opened, no more than a number at a time, and all are closed. -/
inductive Balanced : Nat → List Move → Prop where
  | nil (n : Nat) : Balanced n []
  | nest {n : Nat} {log : List Move} (first : Token) : Balanced n log →
      Balanced (n + 1) (.opened first :: (log ++ [.closed]))
  | append {n : Nat} {a b : List Move} : Balanced n a → Balanced n b → Balanced n (a ++ b)

/-- Levels are opened until one is refused, with a number of them open, and then those that were
opened are closed. -/
inductive Cut : Nat → List Move → Prop where
  | refused (first : Token) : Cut 0 [.refused first]
  | nest {n : Nat} {log : List Move} (first : Token) : Cut n log →
      Cut (n + 1) (.opened first :: (log ++ [.closed]))
  | append {n : Nat} {a b : List Move} : Balanced n a → Cut n b → Cut n (a ++ b)

theorem Balanced.height_eq {n : Nat} {log : List Move} (h : Balanced n log) : height log = 0 := by
  induction h with
  | nil => rfl
  | nest _ _ ih => simp [ih, Move.shift]
  | append _ _ ih₁ ih₂ => simp [ih₁, ih₂]

theorem Cut.height_eq {n : Nat} {log : List Move} (h : Cut n log) : height log = 1 := by
  induction h with
  | refused => rfl
  | nest _ _ ih => simp [ih, Move.shift]
  | append balanced _ ih => simp [balanced.height_eq, ih]

/-- Whether a level is not to be had. -/
def Move.isRefused : Move → Bool
  | refused _ => true
  | _ => false

/-- No level is refused. -/
def Unrefused (log : List Move) : Prop :=
  ∀ move ∈ log, move.isRefused = false

instance (log : List Move) : Decidable (Unrefused log) :=
  inferInstanceAs (Decidable (∀ move ∈ log, move.isRefused = false))

theorem unrefused_append {a b : List Move} :
    Unrefused (a ++ b) ↔ Unrefused a ∧ Unrefused b :=
  List.forall_mem_append

theorem unrefused_nest {first : Token} {log : List Move} :
    Unrefused (.opened first :: (log ++ [.closed])) ↔ Unrefused log := by
  simp [Unrefused, Move.isRefused, or_imp, forall_and]

theorem Balanced.unrefused {n : Nat} {log : List Move} (h : Balanced n log) : Unrefused log := by
  induction h with
  | nil => exact List.forall_mem_nil _
  | nest _ _ ih => exact unrefused_nest.mpr ih
  | append _ _ ih₁ ih₂ => exact unrefused_append.mpr ⟨ih₁, ih₂⟩

theorem Cut.not_unrefused {n : Nat} {log : List Move} (h : Cut n log) : ¬ Unrefused log := by
  induction h with
  | refused => simp [Unrefused, Move.isRefused]
  | nest _ _ ih => exact fun hu => ih (unrefused_nest.mp hu)
  | append _ _ ih => exact fun hu => ih (unrefused_append.mp hu).2

/-! ## Counting levels against a limit -/

/-- What a limit and the number of levels that are open say about a move. -/
def Move.Allowed (limit : Nat) (count : Int) : Move → Prop
  | opened _ => count < limit
  | refused _ => limit ≤ count
  | closed => 0 < count

/-- The moves are those that counting the open levels against a limit leads to. -/
def Counted (limit : Nat) : Int → List Move → Prop
  | _, [] => True
  | count, move :: log => move.Allowed limit count ∧ Counted limit (count + move.shift) log

theorem counted_append {limit : Nat} {count : Int} {a b : List Move} :
    Counted limit count (a ++ b) ↔ Counted limit count a ∧ Counted limit (count + height a) b := by
  induction a generalizing count with
  | nil => simp [Counted]
  | cons move a ih =>
    simp only [List.cons_append, Counted, ih, height_cons, Int.add_assoc, and_assoc]

/-- A level that is opened and closed again. -/
theorem counted_nest {limit : Nat} {count : Int} {first : Token} {log : List Move}
    (below : count < limit) (h : Counted limit (count + 1) log)
    (left : 0 < count + 1 + height log) :
    Counted limit count (.opened first :: (log ++ [.closed])) :=
  ⟨below, counted_append.mpr ⟨h, left, trivial⟩⟩

theorem Balanced.counted {n limit : Nat} {count : Int} {log : List Move} (h : Balanced n log)
    (hc : 0 ≤ count) (hn : (n : Int) = max (limit - count) 0) : Counted limit count log := by
  induction h generalizing count with
  | nil => trivial
  | nest first balanced ih =>
    refine counted_nest (by omega) (ih (by omega) (by omega)) ?_
    rw [balanced.height_eq]
    omega
  | append balanced _ ih₁ ih₂ =>
    refine counted_append.mpr ⟨ih₁ hc hn, ?_⟩
    rw [balanced.height_eq, Int.add_zero]
    exact ih₂ hc hn

theorem Cut.counted {n limit : Nat} {count : Int} {log : List Move} (h : Cut n log)
    (hc : 0 ≤ count) (hn : (n : Int) = max (limit - count) 0) : Counted limit count log := by
  induction h generalizing count with
  | refused => exact ⟨show (limit : Int) ≤ count by omega, trivial⟩
  | nest first cut ih =>
    refine counted_nest (by omega) (ih (by omega) (by omega)) ?_
    rw [cut.height_eq]
    omega
  | append balanced _ ih =>
    refine counted_append.mpr ⟨balanced.counted hc hn, ?_⟩
    rw [balanced.height_eq, Int.add_zero]
    exact ih hc hn

/-! ## Running over -/

/-- The first level that is asked for when none are left, of a number there are at first. -/
def overflow : Nat → List Move → Option Token
  | _, [] => none
  | 0, .opened first :: _ => some first
  | left + 1, .opened _ :: log => overflow left log
  | _, .refused first :: _ => some first
  | left, .closed :: log => overflow (left + 1) log

/-- A balanced log leaves as many levels as there were before. -/
theorem Balanced.overflow_append {n : Nat} {log : List Move} (h : Balanced n log) (left : Nat)
    (rest : List Move) :
    overflow left (log ++ rest) = (overflow left log).or (overflow left rest) := by
  induction h generalizing left rest with
  | nil => rfl
  | nest first _ ih =>
    cases left with
    | zero => rfl
    | succ left =>
      simp only [List.cons_append, List.append_assoc, List.nil_append, overflow, ih left,
        Option.or_none]
  | append _ _ ih₁ ih₂ => simp only [List.append_assoc, ih₁, ih₂, Option.or_assoc]

/-- A nested log runs over at its start or inside. -/
theorem Balanced.overflow_nest {n : Nat} {log : List Move} (h : Balanced n log) (left : Nat)
    (first : Token) :
    overflow (left + 1) (.opened first :: (log ++ [.closed])) = overflow left log := by
  rw [overflow, h.overflow_append]
  simp [overflow]

/-- No beginning of a log is higher than a number of levels. -/
def Low (left : Int) (log : List Move) : Prop :=
  ∀ start, start <+: log → height start ≤ left

theorem low_nil {left : Int} (nonneg : 0 ≤ left) : Low left [] := by
  intro start hs
  rwa [List.prefix_nil.mp hs]

theorem low_cons {left : Int} {move : Move} {log : List Move} (nonneg : 0 ≤ left)
    (h : Low (left - move.shift) log) : Low left (move :: log) := by
  intro start hs
  cases start with
  | nil => exact nonneg
  | cons head start =>
    obtain ⟨rfl, inside⟩ := List.cons_prefix_cons.mp hs
    have := h start inside
    rw [height_cons]
    omega

/-- A log that does not run over is not higher than there are levels. -/
theorem low_of_overflow {left : Nat} {log : List Move} (h : overflow left log = none) :
    Low left log := by
  induction log generalizing left with
  | nil => exact low_nil (Int.natCast_nonneg left)
  | cons move log ih =>
    refine low_cons (Int.natCast_nonneg left) ?_
    cases move with
    | opened first =>
      cases left with
      | zero => cases h
      | succ left => simpa [Move.shift] using ih h
    | refused => cases left <;> cases h
    | closed =>
      rw [overflow] at h
      simpa [Move.shift] using ih h

/-- A log that runs over does so at the first level that is opened with all levels open. -/
theorem exists_of_overflow {left : Nat} {log : List Move} {first : Token} (hu : Unrefused log)
    (h : overflow left log = some first) :
    ∃ start rest, log = start ++ .opened first :: rest ∧ height start = left ∧ Low left start := by
  induction log generalizing left with
  | nil => cases h
  | cons move log ih =>
    obtain ⟨granted, hu'⟩ := List.forall_mem_cons.mp hu
    cases move with
    | refused => cases granted
    | opened token =>
      cases left with
      | zero =>
        cases h
        exact ⟨[], log, rfl, rfl, low_nil (Int.le_refl 0)⟩
      | succ left =>
        obtain ⟨start, rest, rfl, top, low⟩ := ih hu' h
        refine ⟨.opened token :: start, rest, rfl, ?_, low_cons (Int.natCast_nonneg _) ?_⟩
        · simp only [height_cons, Move.shift, top]
          omega
        · simpa [Move.shift] using low
    | closed =>
      rw [overflow] at h
      obtain ⟨start, rest, rfl, top, low⟩ := ih hu' h
      refine ⟨.closed :: start, rest, rfl, ?_, low_cons (Int.natCast_nonneg _) ?_⟩
      · simp only [height_cons, Move.shift, top]
        omega
      · simpa [Move.shift] using low

/-- A log runs over if and only if some beginning of it is too high. -/
theorem overflow_eq_none_iff {left : Nat} {log : List Move} (hu : Unrefused log) :
    overflow left log = none ↔ Low left log := by
  refine ⟨low_of_overflow, fun low => ?_⟩
  cases h : overflow left log with
  | none => rfl
  | some first =>
    obtain ⟨start, rest, rfl, top, -⟩ := exists_of_overflow hu h
    have := low (start ++ [.opened first]) ⟨rest, by simp⟩
    simp only [height_append, height_cons, height_nil, Move.shift, top] at this
    omega

end Formula
