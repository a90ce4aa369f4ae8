import Formula.Proofs.Acts

/-!
# The pace of reading

Reading always goes on in the text. Whoever opens a level takes a token before anything else is
done, and once the end of the text is taken, or a level is refused, levels are closed and nothing
else happens (`Prompt`). So there are no more levels than tokens, but for one (`Prompt.calls_le`),
whatever the limit on the levels (`parse_paced`).

The log of a phrase is prompt together with what is done after it, which is anything if the phrase
is read and nothing but closing levels if it is not (`Leads`).
-/

namespace Formula

open Except (ok error)

/-! ## One step after the other -/

/-- Levels are closed, and nothing else is done. -/
def Spent (log : List Act) : Prop :=
  ∀ act ∈ log, act = .moved .closed

theorem Spent.nil : Spent [] :=
  List.forall_mem_nil _

theorem Spent.closed {log : List Act} (h : Spent log) : Spent (.moved .closed :: log) :=
  List.forall_mem_cons.mpr ⟨rfl, h⟩

/-- What is done from one cursor to another: whoever opens a level takes a token before anything
else, and once the end of the text is taken, or a level is refused, levels are closed only. -/
inductive Prompt : Cursor → List Act → Cursor → Prop where
  | nil (c : Cursor) : Prompt c [] c
  | closed {c last : Cursor} {log : List Act} : Prompt c log last →
      Prompt c (.moved .closed :: log) last
  | peek {c last : Cursor} {log : List Act} : Prompt c.peek.2 log last →
      Prompt c (.asked .peek :: log) last
  | next {c last : Cursor} {log : List Act} : c.next.1.isFinish = false →
      Prompt c.next.2 log last → Prompt c (.asked .next :: log) last
  | finish {c : Cursor} {log : List Act} : c.next.1.isFinish = true → Spent log →
      Prompt c (.asked .next :: log) c.next.2
  | opened {c last : Cursor} {log : List Act} : Prompt c (.asked .next :: log) last →
      Prompt c (.moved (.opened c.next.1) :: .asked .next :: log) last
  | refused {c : Cursor} {log : List Act} : Spent log →
      Prompt c (.moved (.refused c.next.1) :: .asked .peek :: log) c.peek.2

theorem Spent.prompt {log : List Act} (h : Spent log) (c : Cursor) : Prompt c log c := by
  induction log with
  | nil => exact .nil c
  | cons act log ih =>
    obtain ⟨rfl, later⟩ := List.forall_mem_cons.mp h
    exact .closed (ih later)

/-- What may be done after a reading that has succeeded, or failed, and where it leads. -/
def Onward (success : Bool) (last : Cursor) (rest : List Act) (stop : Cursor) : Prop :=
  if success then Prompt last rest stop else Spent rest ∧ stop = last

/-- A log leads from one cursor to another, whatever may be done after it. -/
def Leads (success : Bool) (c : Cursor) (log : List Act) (last : Cursor) : Prop :=
  ∀ rest stop, Onward success last rest stop → Prompt c (log ++ rest) stop

theorem Onward.prompt {success : Bool} {last stop : Cursor} {rest : List Act}
    (h : Onward success last rest stop) : Prompt last rest stop := by
  cases success with
  | true => exact h
  | false =>
    obtain ⟨spent, rfl⟩ := h
    exact spent.prompt _

theorem Onward.closed {success : Bool} {last stop : Cursor} {rest : List Act}
    (h : Onward success last rest stop) : Onward success last (.moved .closed :: rest) stop := by
  cases success with
  | true => exact Prompt.closed h
  | false => exact ⟨h.1.closed, h.2⟩

namespace Leads

variable {success : Bool} {c middle last : Cursor} {a b log : List Act} {kind : Token.Kind}

theorem append (ha : Leads true c a middle) (hb : Leads success middle b last) :
    Leads success c (a ++ b) last := by
  intro rest stop h
  rw [List.append_assoc]
  exact ha _ _ (hb rest stop h)

theorem peek (h : Leads success c.peek.2 log last) : Leads success c (.asked .peek :: log) last :=
  fun rest stop onward => .peek (h rest stop onward)

theorem next (hk : c.next.1.kind = kind) (more : kind.isFinish = false)
    (h : Leads success c.next.2 log last) : Leads success c (.asked .next :: log) last :=
  fun rest stop onward =>
    .next ((Token.isFinish_of_kind hk).trans more) (h rest stop onward)

/-- The last token that is taken. -/
theorem took (hk : c.next.1.kind = kind) (more : kind.isFinish = false) :
    Leads success c [.asked .next] c.next.2 :=
  fun _ _ onward => .next ((Token.isFinish_of_kind hk).trans more) onward.prompt

/-- The token at which a reading fails, which may be the end of the text. -/
theorem fails (c : Cursor) : Leads false c [.asked .next] c.next.2 := by
  rintro rest stop ⟨spent, rfl⟩
  cases finish : c.next.1.isFinish with
  | true => exact .finish finish spent
  | false => exact .next finish (spent.prompt _)

/-- What goes on after a success may stop as well. -/
theorem stops (h : Leads true c log last) : Leads false c log last :=
  fun rest stop onward => h rest stop onward.prompt

/-- A token that is looked at last. -/
theorem looks (c : Cursor) : Leads success c [.asked .peek] c.peek.2 :=
  fun _ _ onward => .peek onward.prompt

/-- A level that is closed again. -/
theorem nest (h : Leads success c (.asked .next :: log) last) :
    Leads success c (.moved (.opened c.next.1) :: (.asked .next :: log ++ [.moved .closed]))
      last := by
  intro rest stop onward
  have inside := h _ stop onward.closed
  rw [List.cons_append] at inside
  simpa using Prompt.opened inside

theorem refused (c : Cursor) :
    Leads false c [.moved (.refused c.next.1), .asked .peek] c.peek.2 := by
  rintro rest stop ⟨spent, rfl⟩
  exact .refused spent

end Leads

theorem isOk_map {α β : Type} (f : α → β) (answer : Except Diagnostic α) :
    (answer.map f).isOk = answer.isOk := by
  cases answer <;> rfl

open Phrase

/-- What is done for a phrase leads to the cursor after it. -/
theorem Reads.leads {scope : Scope} {phrase : Phrase} {c last : Cursor}
    {answer : Except Diagnostic phrase.Answer} (h : Reads scope phrase c answer last) :
    Leads answer.isOk c (phrase.acts scope c) last := by
  induction h with
  | tooDeep =>
    rw [acts_refused]
    exact .refused _
  | @exprFails levels _ c _ _ reads ih =>
    obtain ⟨log, operand⟩ := exists_acts_operand scope levels c
    rw [acts_exprFails reads]
    rw [operand] at ih ⊢
    exact ih.nest
  | @expr levels least c after _ _ _ reads _ ih₁ ih₂ =>
    obtain ⟨log, operand⟩ := exists_acts_operand scope levels c
    have inside := ih₁.append ih₂
    rw [acts_expr reads, isOk_map]
    rw [operand] at inside ⊢
    exact inside.nest
  | number kind =>
    rw [acts_atom (by simp [kind]) (by simp [kind]) (by simp [kind]) (by simp [kind])]
    exact .took kind rfl
  | unbound kind found | var kind found | constant kind found =>
    rw [acts_atom (by simp [kind]) (by simp [kind]) (by simp [kind]) (by simp [found])]
    exact .took kind rfl
  | function kind found _ ih =>
    rw [acts_function kind found]
    exact ih.next kind rfl
  | parenFails kind reads ih =>
    rw [acts_parenFails kind reads]
    exact ih.next kind rfl
  | paren kind reads close ih =>
    rw [acts_paren kind reads]
    exact .next kind rfl (ih.append (.took close rfl))
  | parenOpen kind reads _ ih =>
    rw [acts_paren kind reads]
    exact .next kind rfl (ih.append (.fails _))
  | minus kind _ ih =>
    rw [acts_sign (.inl kind), isOk_map]
    exact ih.next kind rfl
  | plus kind _ ih =>
    rw [acts_sign (.inr kind), isOk_map]
    exact ih.next kind rfl
  | closed kind =>
    rw [acts_atom (by simp [kind]) (by simp [kind]) (by simp [kind]) (by simp [kind])]
    exact .took kind rfl
  | noOperand starts closed =>
    rw [acts_atom]
    · exact .fails _
    all_goals
      intro kind
      simp [kind, Token.Kind.startsOperand] at starts
  | stop weak =>
    rw [acts_stop weak]
    exact .looks _
  | @stepFails _ _ c _ _ _ kind strong reads ih =>
    rw [acts_stepFails kind strong reads]
    rw [← c.next_of_peek] at kind ih ⊢
    exact (ih.next kind rfl).peek
  | @step _ _ c _ _ _ _ _ kind strong reads _ ih₁ ih₂ =>
    rw [acts_step kind strong reads, isOk_map]
    have inside := ih₁.append ih₂
    rw [← c.next_of_peek] at kind inside ⊢
    exact (inside.next kind rfl).peek
  | callUnopened kind =>
    rw [acts_callUnopened kind]
    exact .fails _
  | @callEmpty _ _ _ c opening closing | @callMissing _ _ _ c opening closing =>
    rw [acts_callEmpty opening closing]
    rw [← c.next.2.next_of_peek] at closing ⊢
    exact .next opening rfl (.peek (.took closing rfl))
  | callSurplus opening closing none =>
    rw [acts_callSurplus opening closing none]
    exact .next opening rfl (.looks _)
  | callFails opening closing none _ ih | call opening closing none _ _ ih =>
    rw [acts_call opening closing none]
    exact .next opening rfl ih.peek
  | callTooFew opening closing none reads _ ih =>
    rw [acts_call opening closing none]
    exact .next opening rfl ih.stops.peek
  | argFails reads ih =>
    rw [acts_argFails reads]
    exact ih
  | argSurplus reads comma most ih =>
    rw [acts_argSurplus reads comma most]
    exact ih.append (.next comma rfl (.looks _))
  | arg reads comma more _ ih₁ ih₂ =>
    rw [acts_arg reads comma more, isOk_map]
    exact ih₁.append (ih₂.next comma rfl)
  | argLast reads close ih =>
    rw [acts_argLast reads (by simp [close])]
    exact ih.append (.took close rfl)
  | argOpen reads comma _ ih =>
    rw [acts_argLast reads comma]
    exact ih.append (.fails _)

/-! ## What is done next -/

theorem Spent.requests {log : List Act} (h : Spent log) : Act.requests log = [] := by
  induction log with
  | nil => rfl
  | cons act log ih =>
    obtain ⟨rfl, later⟩ := List.forall_mem_cons.mp h
    exact ih later

namespace Prompt

variable {c last : Cursor} {act : Act} {a b log rest : List Act} {first : Token}

theorem tail (h : Prompt c (act :: log) last) : Prompt (c.after (Act.requests [act])) log last := by
  cases h with
  | closed later => exact later
  | peek later => exact later
  | next _ later => exact later
  | finish _ spent => exact spent.prompt _
  | opened later => exact later
  | refused spent => exact .peek (spent.prompt _)

/-- What is left of a log goes on from the cursor that has answered what was asked before. -/
theorem drop (h : Prompt c (a ++ b) last) : Prompt (c.after (Act.requests a)) b last := by
  induction a generalizing c with
  | nil => exact h
  | cons act a ih =>
    have later := ih h.tail
    cases act <;> exact later

/-- The cursor afterwards is the one that has answered all that was asked. -/
theorem after_eq (h : Prompt c log last) : c.after (Act.requests log) = last := by
  rw [← log.append_nil] at h
  cases h.drop with
  | nil => rfl

theorem of_opened (h : Prompt c (.moved (.opened first) :: rest) last) :
    c.next.1 = first ∧ ∃ later, rest = .asked .next :: later ∧
      (first.isFinish = true → Spent later) := by
  cases h with
  | opened inside =>
    refine ⟨rfl, _, rfl, fun finish => ?_⟩
    cases inside with
    | next more => simp [finish] at more
    | finish _ spent => exact spent

theorem of_refused (h : Prompt c (.moved (.refused first) :: rest) last) :
    c.next.1 = first ∧ ∃ later, rest = .asked .peek :: later ∧ Spent later := by
  cases h with
  | refused spent => exact ⟨rfl, _, rfl, spent⟩

end Prompt

/-! ## Counting -/

/-- Whether a level is asked for. -/
def Move.isCall : Move → Bool
  | opened _ | refused _ => true
  | closed => false

/-- How many levels are asked for. -/
def Act.calls (log : List Act) : Nat :=
  (Act.moves log).countP Move.isCall

namespace Act

variable (first : Token) (request : Request) (log : List Act)

@[simp] theorem calls_opened : calls (moved (.opened first) :: log) = calls log + 1 :=
  List.countP_cons_of_pos rfl

@[simp] theorem calls_refused : calls (moved (.refused first) :: log) = calls log + 1 :=
  List.countP_cons_of_pos rfl

@[simp] theorem calls_closed : calls (moved .closed :: log) = calls log := rfl

@[simp] theorem calls_asked : calls (asked request :: log) = calls log := rfl

end Act

theorem Spent.calls {log : List Act} (h : Spent log) : Act.calls log = 0 := by
  induction log with
  | nil => rfl
  | cons act log ih =>
    obtain ⟨rfl, later⟩ := List.forall_mem_cons.mp h
    exact ih later

theorem Cursor.length_ahead_next {c : Cursor} (more : c.next.1.isFinish = false) :
    c.next.2.ahead.length + 1 = c.ahead.length := by
  rw [ahead_of_more more, List.length_cons]

namespace Prompt

variable {c last : Cursor} {log : List Act}

/-- A level is asked for once for each token that is ahead, and once more, unless a token is taken
first. -/
theorem calls_le (h : Prompt c log last) :
    Act.calls log ≤ c.ahead.length + 1 ∧
      (log.head? = some (.asked .next) → Act.calls log ≤ c.ahead.length) := by
  induction h with
  | nil => simp [Act.calls]
  | closed _ ih => simpa using ih.1
  | @peek c _ _ _ ih =>
    rw [c.ahead_peek] at ih
    simpa using ih.1
  | next more _ ih =>
    rw [← Cursor.length_ahead_next more]
    exact ⟨Nat.le_succ_of_le ih.1, fun _ => ih.1⟩
  | finish _ spent => simp [spent.calls]
  | opened _ ih => simpa using ih.2
  | refused spent => simp [spent.calls]

/-- The tokens ahead are taken once each, and then the end. -/
theorem takes_le (h : Prompt c log last) :
    (Act.requests log).count .next ≤ c.ahead.length + 1 := by
  induction h with
  | nil => simp
  | closed _ ih | opened _ ih => simpa using ih
  | @peek c _ _ _ ih =>
    rw [c.ahead_peek] at ih
    simpa using ih
  | next more _ ih =>
    rw [← Cursor.length_ahead_next more]
    simpa using ih
  | finish _ spent => simp [spent.requests]
  | refused spent => simp [spent.requests]

end Prompt

/-! ## Where the cursor is -/

theorem Token.le_stop_scan (position : Nat) (text : List Char) :
    position ≤ (scan position text).1.span.stop := by
  simp only [scan]
  split
  · exact Nat.le_add_right _ _
  · simp only [Nat.add_assoc]
    exact Nat.le_add_right _ _

namespace Cursor

/-- A cursor goes on in a text. -/
structure Advances (c last : Cursor) : Prop where
  size : last.size = c.size
  position : c.position ≤ last.position

namespace Advances

variable {c middle last : Cursor}

theorem refl (c : Cursor) : c.Advances c :=
  ⟨rfl, Nat.le_refl _⟩

theorem trans (h : c.Advances middle) (h' : middle.Advances last) : c.Advances last :=
  ⟨h'.size.trans h.size, Nat.le_trans h.position h'.position⟩

/-- A cursor does not go past the end of its text. -/
theorem le_size (h : c.Advances last) : last.position ≤ c.size :=
  h.size ▸ Nat.le_add_right _ _

theorem fetch (c : Cursor) : c.Advances c.fetch.2 :=
  ⟨Token.stop_add_width_scan _ _, Token.le_stop_scan _ _⟩

theorem next (c : Cursor) : c.Advances c.next.2 := by
  cases waiting : c.waiting with
  | none =>
    rw [next_eq_fetch waiting]
    exact fetch c
  | some token =>
    simp only [Cursor.next, waiting]
    exact ⟨rfl, Nat.le_refl _⟩

theorem peek (c : Cursor) : c.Advances c.peek.2 := by
  cases waiting : c.waiting with
  | none =>
    simp only [Cursor.peek, waiting]
    exact ⟨(fetch c).size, (fetch c).position⟩
  | some token =>
    simp only [Cursor.peek, waiting]
    exact refl c

theorem reply (c : Cursor) (request : Request) : c.Advances (c.reply request).2 := by
  cases request with
  | peek => exact peek c
  | next => exact next c
  | step =>
    cases stopped : c.stopped with
    | true =>
      rw [Cursor.reply, step_of_stopped stopped]
      exact refl c
    | false =>
      have same := resume_step stopped
      have taken := next c
      have position : c.step.2.position = c.next.2.position := congrArg (·.position) same
      exact ⟨(congrArg Cursor.size same).trans taken.size, position ▸ taken.position⟩

/-- Whatever is asked of a cursor, it goes on. -/
theorem after (c : Cursor) (requests : List Request) : c.Advances (c.after requests) := by
  induction requests generalizing c with
  | nil => exact refl c
  | cons request rest ih => exact (reply c request).trans (ih _)

end Advances

theorem after_append (c : Cursor) (a b : List Request) :
    c.after (a ++ b) = (c.after a).after b := by
  induction a generalizing c with
  | nil => rfl
  | cons request rest ih => exact ih _

end Cursor

/-! ## Texts -/

/-- All that is done while a parser reads, in its order. -/
def Parser.acts (scope : Scope) (p : Parser) : List Act :=
  .asked .peek ::
    if p.cursor.next.1.isFinish then []
    else
      (expr p.levels 0).acts scope p.cursor.peek.2 ++
        match Expr.read scope p.levels 0 p.cursor.peek.2 with
        | .error _ _ => []
        | .ok _ _ _ => [.asked .next]

namespace Parser

variable {scope : Scope} {p : Parser} {d : Diagnostic} {e : Expr} {last : Cursor}

theorem acts_of_finish (finish : p.cursor.next.1.isFinish = true) :
    p.acts scope = [.asked .peek] := by
  rw [acts, if_pos finish]

theorem acts_of_error (more : p.cursor.next.1.isFinish = false)
    (h : Reads scope (.expr p.levels 0) p.cursor.peek.2 (error d) last) :
    p.acts scope = .asked .peek :: (expr p.levels 0).acts scope p.cursor.peek.2 := by
  rw [acts, if_neg (by simp [more]), Outcome.eq_error (reads_iff.mp h), List.append_nil]

theorem acts_of_ok (more : p.cursor.next.1.isFinish = false)
    (h : Reads scope (.expr p.levels 0) p.cursor.peek.2 (ok e) last) :
    p.acts scope =
      .asked .peek :: ((expr p.levels 0).acts scope p.cursor.peek.2 ++ [.asked .next]) := by
  obtain ⟨_, found⟩ := Outcome.eq_ok (reads_iff.mp h)
  rw [acts, if_neg (by simp [more]), found]

/-- The levels that are opened and closed are those of the log of the levels. -/
theorem moves_acts (scope : Scope) (p : Parser) : Act.moves (p.acts scope) = p.moves scope := by
  cases finish : p.cursor.next.1.isFinish with
  | true => rw [acts_of_finish finish, moves_of_finish finish]; rfl
  | false =>
    obtain ⟨_ | e, last, reads⟩ := exists_reads scope (.expr p.levels 0) p.cursor.peek.2
    · simp [acts_of_error finish reads, moves_of_more finish, reads.moves_acts]
    · simp [acts_of_ok finish reads, moves_of_more finish, reads.moves_acts]

/-- What a parser does leads to its cursor afterwards. -/
theorem prompt (scope : Scope) (p : Parser) :
    Prompt p.cursor (p.acts scope) (p.parse scope).2.cursor := by
  obtain ⟨answer, q, parses⟩ := exists_parses scope p.levels p.cursor
  rw [parses.parse_eq]
  cases parses with
  | empty finish =>
    rw [acts_of_finish finish]
    exact .peek (.nil _)
  | fails more reads =>
    have inside := reads.leads [] _ ⟨.nil, rfl⟩
    rw [List.append_nil] at inside
    rw [acts_of_error more reads]
    exact .peek inside
  | whole more reads finish =>
    rw [acts_of_ok more reads]
    exact .peek (reads.leads _ _ (.finish finish .nil))
  | more more reads trailing =>
    rw [acts_of_ok more reads]
    exact .peek (reads.leads _ _ (.next trailing (.nil _)))

end Parser

/-- How a text is read with a limit on the levels. -/
structure Paced (scope : Scope) (source : String) (limit : Nat) (log : List Act) : Prop where
  /-- What is asked while the text is read leads to the cursor of the parser afterwards, -/
  cursor : (Cursor.ofString source).after (Act.requests log) =
    ((Parser.ofString source limit).parse scope).2.cursor
  /-- and what is done with the levels is the log of the levels. -/
  levels : Act.moves log = (Parser.ofString source limit).moves scope
  /-- Whoever opens a level takes the token that it starts with before anything else is done. If
  that is the end of the text, nothing is left to do but to close levels. -/
  opened : ∀ before first rest, log = before ++ .moved (.opened first) :: rest →
    ((Cursor.ofString source).after (Act.requests before)).next.1 = first ∧
      ∃ later, rest = .asked .next :: later ∧ (first.isFinish = true → Spent later)
  /-- Whoever is refused a level looks at the token that it would start with. Nothing is left to
  do then but to close levels. -/
  refused : ∀ before first rest, log = before ++ .moved (.refused first) :: rest →
    ((Cursor.ofString source).after (Act.requests before)).next.1 = first ∧
      ∃ later, rest = .asked .peek :: later ∧ Spent later
  /-- The tokens that are taken are the first ones of the text, each of them once. -/
  handed : (Cursor.ofString source).handed (Act.requests log) <+: tokens source
  /-- A token is taken no more often than there are tokens, and the end of the text once. -/
  takes : (Act.requests log).count .next ≤ (tokens source).length + 1
  /-- A level is asked for no more often than there are tokens, and once more. -/
  calls : Act.calls log ≤ (tokens source).length + 1
  /-- The cursor never goes back, and never past the end of the text. -/
  position : ∀ before after, before ++ after <+: Act.requests log →
    ((Cursor.ofString source).after before).position ≤
        ((Cursor.ofString source).after (before ++ after)).position ∧
      ((Cursor.ofString source).after (before ++ after)).position ≤ source.utf8ByteSize

/-- Reading ends whatever the limit: a token is taken whenever a level is opened, no token is taken
twice, and the cursor goes on in the text. -/
theorem parse_paced (scope : Scope) (source : String) (limit : Nat) :
    Paced scope source limit ((Parser.ofString source limit).acts scope) := by
  have prompt : Prompt (.ofString source) _ _ := Parser.prompt scope (.ofString source limit)
  obtain ⟨n, served⟩ := (Cursor.serves_ofString source).after
    (Act.requests ((Parser.ofString source limit).acts scope))
  exact {
    cursor := prompt.after_eq
    levels := Parser.moves_acts _ _
    opened := fun before first rest split => (split ▸ prompt).drop.of_opened
    refused := fun before first rest split => (split ▸ prompt).drop.of_refused
    handed := by
      have taken := served.handed
      rw [List.nil_append] at taken
      exact taken ▸ List.take_prefix n _
    takes := prompt.takes_le
    calls := prompt.calls_le.1
    position := fun before after _ => by
      have whole := Cursor.Advances.after (.ofString source) (before ++ after)
      rw [Cursor.after_append]
      refine ⟨(Cursor.Advances.after _ after).position, ?_⟩
      rw [← Cursor.after_append, ← Cursor.size_ofString]
      exact whole.le_size }

-- As many levels as that are asked for where every token but the end leads to another level.
example : Act.calls ((Parser.ofString "-(+(" 64).acts .empty) = (tokens "-(+(").length + 1 := by
  decide +kernel

end Formula
