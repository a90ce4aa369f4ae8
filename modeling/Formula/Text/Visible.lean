/-!
# Visible text

What a terminal shows of a text. Some characters begin a sequence that a terminal obeys
and does not show. Text from outside is shown without such sequences, and without all
other control characters but white space, so that it cannot change the look of a message.

The escape character begins a sequence everywhere, and two control characters, cancel and
substitute, end every sequence. In between, a sequence goes by its kind.

* `visible`: the part of a text that is shown.
* `visible_eq_self`: a text without control characters is shown as it is.
-/

namespace Formula.Text

/-- How far a sequence has come. -/
inductive Sequence where
  /-- After the escape character. -/
  | escape
  /-- After the escape character and signs, before the character that ends them. -/
  | designation
  /-- Before the letter or sign that ends a control sequence. -/
  | control
  /-- In a command to the system, which a bell ends. -/
  | command
  /-- At the beginning of a string to a device. -/
  | deviceStart
  /-- In the numbers before a string to a device. -/
  | deviceNumbers
  /-- In the signs before a string to a device. -/
  | deviceSigns
  /-- In a string, which a byte of its own ends. -/
  | string
deriving DecidableEq

/-- What a terminal is in the middle of. -/
inductive Mode where
  /-- Text, which is shown. -/
  | plain
  /-- A sequence. -/
  | within (s : Sequence)
  /-- Text that white space has begun within a sequence, and which is shown. -/
  | between (s : Sequence)
deriving DecidableEq

/-- Whether a character is one of the control characters of ASCII. -/
def isControl (c : Char) : Bool :=
  decide (c.toNat < 0x20) || c.toNat == 0x7f

/-- The control characters that are white space: tab, line feed, form feed and carriage
return. -/
def isSpacing (c : Char) : Bool :=
  c == '\t' || c == '\n' || c == '\x0c' || c == '\r'

/-- Whether a character is shown as part of a text. -/
def isShown (c : Char) : Bool :=
  !isControl c || isSpacing c

/-- Whether a character has more than one byte. -/
def isWide (c : Char) : Bool :=
  decide (0x7f < c.toNat)

/-- Whether one of the bytes of a character ends a string. -/
def endsString (c : Char) : Bool :=
  (String.utf8EncodeChar c).contains 0x9c

namespace Sequence

/-- Whether white space is shown within a sequence. -/
def showsSpacing : Sequence → Bool
  | escape | designation | control => true
  | command | deviceStart | deviceNumbers | deviceSigns | string => false

/-- The mode after a printing character of ASCII within a sequence. -/
def afterPrinting (s : Sequence) (c : Char) : Mode :=
  match s with
  | escape =>
    match c with
    | '[' => .within control
    | ']' => .within command
    | 'P' => .within deviceStart
    | 'X' | '^' | '_' => .within string
    | _ => if c.toNat < 0x30 then .within designation else .plain
  | designation => if c.toNat < 0x30 then .within designation else .plain
  | control => if c.toNat < 0x40 then .within control else .plain
  | deviceStart =>
    if c.toNat < 0x30 then .within deviceSigns
    else if c.toNat < 0x40 then .within deviceNumbers
    else .within string
  | deviceNumbers =>
    if c.toNat < 0x30 then .within deviceSigns
    else if c.toNat < 0x3c then .within deviceNumbers
    else .within string
  | deviceSigns => if c.toNat < 0x30 then .within deviceSigns else .within string
  | command | string => .within s

/-- The mode after a character within a sequence that does not begin or end one
everywhere. Control characters and those of more than one byte leave most sequences as
they are. -/
def after (s : Sequence) (c : Char) : Mode :=
  match s with
  | command => if c = '\x07' then .plain else .within command
  | string => if endsString c then .plain else .within string
  | _ =>
    if s.showsSpacing && isSpacing c then .between s
    else if isControl c || isWide c then .within s
    else s.afterPrinting c

end Sequence

namespace Mode

/-- Whether a character is shown. -/
def shows (mode : Mode) (c : Char) : Bool :=
  match mode with
  | plain | between _ => isShown c
  | within s => s.showsSpacing && isSpacing c

/-- The mode after a character. Text within a sequence goes on to a control character,
which takes the sequence up again, or to a character of more than one byte, after which
the sequence is over. -/
def after (mode : Mode) (c : Char) : Mode :=
  if c = '\x1b' then within .escape
  else if c = '\x18' ∨ c = '\x1a' then plain
  else
    match mode with
    | plain => plain
    | within s => s.after c
    | between s => if isWide c then plain else if isShown c then between s else s.after c

/-- The characters that are shown. -/
def filter : Mode → List Char → List Char
  | _, [] => []
  | mode, c :: rest =>
    if mode.shows c then c :: (mode.after c).filter rest else (mode.after c).filter rest

end Mode

/-- The part of a text that is shown. -/
def visible (text : String) : String :=
  String.ofList (Mode.plain.filter text.toList)

/-- A character that is no control character begins no sequence. -/
theorem Mode.after_plain {c : Char} (h : isControl c = false) : Mode.plain.after c = .plain := by
  have escape : c ≠ '\x1b' := by rintro rfl; revert h; decide
  simp [Mode.after, escape]

/-- A text without control characters is shown as it is. -/
theorem visible_eq_self {text : String} (h : ∀ c ∈ text.toList, isControl c = false) :
    visible text = text := by
  suffices kept : ∀ cs : List Char, (∀ c ∈ cs, isControl c = false) →
      Mode.plain.filter cs = cs by
    rw [visible, kept _ h, String.ofList_toList]
  intro cs
  induction cs with
  | nil => simp [Mode.filter]
  | cons c rest ih =>
    intro printing
    have first := printing c (by simp)
    have others := ih fun d member => printing d (by simp [member])
    simp [Mode.filter, Mode.shows, isShown, first, Mode.after_plain first, others]

/-- A change of colour is not shown, nor is a title with the bell at its end. -/
example : visible "a\x1b[1;31mb\x1b]0;title\x07c\x7f" = "abc" := by decide

/-- White space is shown within a control sequence, and so is what comes between it and
the next control character, after which the sequence goes on to its letter. -/
example : visible "a\x1b[1\tb\x01;31mc" = "a\tbc" := by decide

/-- A string to a device ends only after the numbers and signs before it. -/
example : visible "a\x1bP“b“c" = "ac" := by decide

end Formula.Text
