/-!
# Widths

Positions in a text are counted in bytes of its UTF-8 form, in which a character
takes one to four.
-/

namespace Formula.Text

/-- How many bytes the characters take. -/
def width : List Char → Nat
  | [] => 0
  | c :: rest => c.utf8Size + width rest

@[simp] theorem width_nil : width [] = 0 := rfl

@[simp] theorem width_cons (c : Char) (text : List Char) :
    width (c :: text) = c.utf8Size + width text := rfl

@[simp] theorem width_append (a b : List Char) : width (a ++ b) = width a + width b := by
  induction a with
  | nil => simp
  | cons c rest ih => simp [ih, Nat.add_assoc]

theorem width_eq_zero_iff {text : List Char} : width text = 0 ↔ text = [] := by
  cases text with
  | nil => simp
  | cons c rest => simp [Nat.ne_of_gt c.utf8Size_pos]

/-- The width of the characters of a string is its size in bytes. -/
theorem width_toList (s : String) : width s.toList = s.utf8ByteSize := by
  suffices h : ∀ text : List Char, width text = (String.ofList text).utf8ByteSize by
    simpa using h s.toList
  intro text
  induction text with
  | nil => rfl
  | cons c rest ih =>
    rw [String.ofList_cons, String.utf8ByteSize_append, ← ih, width_cons]
    simp

end Formula.Text
