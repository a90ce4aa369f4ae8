import Formula.Compilation
import Formula.Proofs.Grammar.Sound

/-!
# Every formula is read

Where tokens of a derivation are ahead and what follows them does not bind more tightly
than the derivation's layer allows, they are read, and what is read stands for the tree
of the derivation (`Derives.readable`). With `Reads.sound` it follows that the texts that
are read are those whose tokens are formulas (`parse_ok_iff`).
-/

namespace Formula

open Except (ok error)

namespace Layer

/-- The least power with which the operators of a layer bind on their left. -/
def floor : Layer → Nat
  | sum => 1
  | product => 3
  | signed => 7
  | power => 7
  | atom => 8

/-- An operator that binds less tightly than this on its left does not belong to a part of
the layer before it. -/
def ceiling : Layer → Nat
  | sum => 2
  | product => 4
  | signed => 5
  | power => 5
  | atom => 8

end Layer

/-- An operand and some steps after it are read: however reading goes on from the last
cursor, it can do so after these steps. -/
def ReadsTo (scope : Scope) (levels floor : Nat) (c : Cursor) (t : Tree) (last : Cursor) : Prop :=
  ∃ first middle steps, Reads scope (.operand levels) c (ok first) middle ∧
    (∀ least ≤ floor, ∀ more stop, Reads scope (.steps levels least) last (ok more) stop →
      Reads scope (.steps levels least) middle (ok (steps ++ more)) stop) ∧
    Expr.treeSteps first.tree steps = t

namespace ReadsTo

variable {scope : Scope} {levels floor : Nat} {c middle last : Cursor} {t : Tree}

theorem operand {first : Expr} (h : Reads scope (.operand levels) c (ok first) last) :
    ReadsTo scope levels floor c first.tree last :=
  ⟨first, last, [], h, fun _ _ _ _ h' => h', rfl⟩

theorem mono {a b : Nat} (h : ReadsTo scope levels a c t last) (le : b ≤ a) :
    ReadsTo scope levels b c t last := by
  obtain ⟨first, middle, steps, h₁, h₂, e⟩ := h
  exact ⟨first, middle, steps, h₁, fun least hl => h₂ least (Nat.le_trans hl le), e⟩

/-- One more step. -/
theorem step {op : Operator} {right : Expr} (h : ReadsTo scope levels floor c t middle)
    (kind : middle.next.1.kind = .operator op) (le : floor ≤ op.leftPower)
    (hr : Reads scope (.expr levels op.rightPower) middle.next.2 (ok right) last) :
    ReadsTo scope levels floor c (.binary op t right.tree) last := by
  obtain ⟨first, after, steps, h₁, h₂, rfl⟩ := h
  refine ⟨first, after, steps ++ [⟨op, middle.next.1.span, right⟩], h₁, ?_, ?_⟩
  · intro least hl more stop h'
    rw [List.append_assoc]
    exact h₂ least hl _ _ (.step kind (Nat.le_trans hl le) hr h')
  · exact Expr.treeSteps_concat _ _ _

/-- An expression ends where no operator follows that binds tightly enough. -/
theorem expr {least : Nat} (h : ReadsTo scope levels floor c t last) (le : least ≤ floor)
    (below : Below least last.ahead) :
    ∃ e stop, Reads scope (.expr (levels + 1) least) c (ok e) stop ∧
      stop.ahead = last.ahead ∧ e.tree = t := by
  obtain ⟨first, middle, steps, h₁, h₂, rfl⟩ := h
  have ended := h₂ least le [] _ (.stop (below_ahead_iff.mp below))
  rw [List.append_nil] at ended
  exact ⟨.chain first steps, _, .expr h₁ ended, last.ahead_peek, Expr.tree_chain first steps⟩

end ReadsTo

theorem below_of_kind {power : Nat} {token : Token} {kind : Token.Kind} {ts : List Token}
    (h : token.kind = kind) (hk : ∀ op, kind = .operator op → op.leftPower < power) :
    Below power (token :: ts) := by
  intro first hf op kind'
  cases hf
  exact hk op (h.symm.trans kind')

/-- A sequence of tokens starts with one that can start an operand. -/
def Starts (ts : List Token) : Prop :=
  ∃ token rest, ts = token :: rest ∧ token.kind.startsOperand = true

theorem Starts.append {us : List Token} (h : Starts us) (vs : List Token) : Starts (us ++ vs) := by
  obtain ⟨token, rest, rfl, starts⟩ := h
  exact ⟨token, rest ++ vs, rfl, starts⟩

theorem starts_of_kind {token : Token} {kind : Token.Kind} {ts : List Token}
    (h : token.kind = kind) (hk : kind.startsOperand = true) : Starts (token :: ts) :=
  ⟨token, ts, rfl, by rwa [h]⟩

theorem Separated.starts {parts : List (List Token)} {ts : List Token} (h : Separated parts ts)
    (hp : ∀ part ∈ parts, Starts part) : Starts ts := by
  cases h with
  | one => exact hp _ (List.mem_singleton_self _)
  | more => exact (hp _ List.mem_cons_self).append _

theorem Derives.starts {scope : Scope} {levels : Nat} {layer : Layer} {ts : List Token}
    {t : Tree} (h : Derives scope levels layer ts t) : Starts ts := by
  induction h with
  | ofProduct _ ih | ofSigned _ ih | ofPower _ ih | ofAtom _ ih => exact ih
  | sum _ _ _ _ ih | product _ _ _ _ ih | power _ _ _ ih => exact ih.append _
  | minus kind | plus kind | number kind | constant kind | var kind | paren kind
  | callEmpty kind | call kind => exact starts_of_kind kind rfl

/-- What it takes to read a part of a formula: its tokens are ahead, and what follows does
not belong to it. -/
def Readable (scope : Scope) (levels : Nat) (layer : Layer) (ts : List Token) (t : Tree) : Prop :=
  ∀ (c : Cursor) (rest : List Token), c.ahead = ts ++ rest → Below layer.ceiling rest →
    ∃ last, last.ahead = rest ∧ ReadsTo scope levels layer.floor c t last

/-- Arguments that can be read one by one are read with the commas between them and the
closing parenthesis, if there are not too many. -/
theorem reads_args {scope : Scope} {levels count : Nat} {arity : Arity}
    {parts : List (List Token × Tree)} {ts rest : List Token} {closing : Token} {c : Cursor}
    (separated : Separated (parts.map Prod.fst) ts)
    (hp : ∀ part ∈ parts, Readable scope levels .sum part.1 part.2)
    (ahead : c.ahead = ts ++ closing :: rest) (close : closing.kind = .closeParen)
    (hm : ∀ most, arity.most? = some most → count + parts.length ≤ most + 1) :
    ∃ args last, Reads scope (.args (levels + 1) arity count) c (ok (args, closing.span)) last ∧
      last.ahead = rest ∧ Expr.treeArgs args = parts.map Prod.snd := by
  generalize hl : parts.map Prod.fst = lists at separated
  induction separated generalizing parts count c with
  | one =>
    obtain ⟨part, rfl, rfl⟩ := List.map_eq_singleton_iff.mp hl
    obtain ⟨middle, e, reads⟩ := hp part (List.mem_singleton_self _) c _ ahead
      (below_of_kind close (by simp))
    obtain ⟨arg, after, h, e', tree⟩ := reads.expr (Nat.zero_le _)
      (by rw [e]; exact below_of_kind close (by simp))
    obtain ⟨rfl, e''⟩ := Cursor.next_of_ahead (e'.trans e)
    exact ⟨[arg], _, .argLast h close, e'', by simp [Expr.treeArgs, tree]⟩
  | more comma separated ih =>
    obtain ⟨part, more, rfl, rfl, rfl⟩ := List.map_eq_cons_iff.mp hl
    rw [List.append_assoc] at ahead
    obtain ⟨middle, e, reads⟩ := hp part List.mem_cons_self c _ ahead
      (below_of_kind comma (by simp))
    obtain ⟨arg, after, h, e', tree⟩ := reads.expr (Nat.zero_le _)
      (by rw [e]; exact below_of_kind comma (by simp))
    obtain ⟨rfl, e''⟩ := Cursor.next_of_ahead (e'.trans e)
    have fits : ∀ most, arity.most? = some most → count + 1 + more.length ≤ most + 1 := by
      intro most hm'
      have := hm most hm'
      rw [List.length_cons] at this
      omega
    obtain ⟨args, last, h', ended, trees⟩ :=
      ih (fun part hp' => hp part (List.mem_cons_of_mem _ hp')) e'' fits rfl
    refine ⟨arg :: args, last, .arg h comma (fun hm' => ?_) h', ended,
      by simp [Expr.treeArgs, tree, trees]⟩
    have := hm count hm'
    have := List.length_pos_iff.mpr separated.ne_nil
    simp only [List.length_cons, List.length_map] at *
    omega

namespace Readable

variable {scope : Scope} {levels : Nat} {us vs : List Token} {left right : Tree}

/-- A part of one layer is a part of a layer around it. -/
theorem weaken {a b : Layer} (h : Readable scope levels a us left)
    (hf : b.floor ≤ a.floor) (hc : b.ceiling ≤ a.ceiling) : Readable scope levels b us left := by
  intro c rest ahead below
  obtain ⟨last, e, reads⟩ := h c rest ahead (below.mono hc)
  exact ⟨last, e, reads.mono hf⟩

/-- An operator is read after the part on its left, if it belongs to what is before it
and reading goes on for operators like it. -/
theorem binary {a b layer : Layer} {token : Token} {op : Operator}
    (hl : Readable scope (levels + 1) a us left) (kind : token.kind = .operator op)
    (hr : Readable scope levels b vs right) (floors : layer.floor ≤ a.floor)
    (follows : op.leftPower < a.ceiling) (belongs : layer.floor ≤ op.leftPower)
    (takes : op.rightPower ≤ b.floor) (ends : layer.ceiling ≤ b.ceiling)
    (leaves : layer.ceiling ≤ op.rightPower) :
    Readable scope (levels + 1) layer (us ++ token :: vs) (.binary op left right) := by
  intro c rest ahead below
  rw [List.append_assoc] at ahead
  obtain ⟨middle, e, reads⟩ := hl c _ ahead
    (below_of_kind kind fun _ h => by cases h; exact follows)
  obtain ⟨rfl, e'⟩ := Cursor.next_of_ahead e
  obtain ⟨after, ended, reads'⟩ := hr middle.next.2 rest e' (below.mono ends)
  obtain ⟨operand, last, h, e'', rfl⟩ := reads'.expr takes (by rw [ended]; exact below.mono leaves)
  exact ⟨last, e''.trans ended, (reads.mono floors).step kind belongs h⟩

/-- Whatever is read as one operand can be a part of any layer. -/
theorem of_operand {layer : Layer}
    (h : ∀ (c : Cursor) (rest : List Token), c.ahead = us ++ rest → Below layer.ceiling rest →
      ∃ e last, Reads scope (.operand levels) c (ok e) last ∧ last.ahead = rest ∧ e.tree = left) :
    Readable scope levels layer us left := by
  intro c rest ahead below
  obtain ⟨e, last, reads, ended, rfl⟩ := h c rest ahead below
  exact ⟨last, ended, .operand reads⟩

end Readable

/-- A part of a formula can be read. -/
theorem Derives.readable {scope : Scope} {levels : Nat} {layer : Layer} {ts : List Token}
    {t : Tree} (h : Derives scope levels layer ts t) : Readable scope levels layer ts t := by
  induction h with
  | ofProduct _ ih | ofSigned _ ih | ofPower _ ih | ofAtom _ ih =>
    exact ih.weaken (by decide) (by decide)
  | sum _ kind additive _ ih₁ ih₂ =>
    rcases additive with rfl | rfl <;>
    exact ih₁.binary kind ih₂ (by decide) (by decide) (by decide) (by decide) (by decide)
      (by decide)
  | product _ kind multiplicative _ ih₁ ih₂ =>
    rcases multiplicative with rfl | rfl | rfl <;>
    exact ih₁.binary kind ih₂ (by decide) (by decide) (by decide) (by decide) (by decide)
      (by decide)
  | power _ kind _ ih₁ ih₂ =>
    exact ih₁.binary kind ih₂ (by decide) (by decide) (by decide) (by decide) (by decide)
      (by decide)
  | minus kind _ ih =>
    refine .of_operand fun c rest ahead below => ?_
    obtain ⟨rfl, e⟩ := Cursor.next_of_ahead ahead
    obtain ⟨after, ended, reads⟩ := ih c.next.2 rest e below
    have le : Operator.signPower ≤ Layer.signed.floor := by decide
    obtain ⟨operand, last, h, e', rfl⟩ := reads.expr le (by rw [ended]; exact below)
    exact ⟨_, last, .minus kind h, e'.trans ended, rfl⟩
  | plus kind _ ih =>
    refine .of_operand fun c rest ahead below => ?_
    obtain ⟨rfl, e⟩ := Cursor.next_of_ahead ahead
    obtain ⟨after, ended, reads⟩ := ih c.next.2 rest e below
    have le : Operator.signPower ≤ Layer.signed.floor := by decide
    obtain ⟨operand, last, h, e', rfl⟩ := reads.expr le (by rw [ended]; exact below)
    exact ⟨_, last, .plus kind h, e'.trans ended, Expr.tree_withSpan _ _⟩
  | number kind =>
    refine .of_operand fun c rest ahead _ => ?_
    obtain ⟨rfl, e⟩ := Cursor.next_of_ahead ahead
    exact ⟨_, _, .number kind, e, rfl⟩
  | constant kind found =>
    refine .of_operand fun c rest ahead _ => ?_
    obtain ⟨rfl, e⟩ := Cursor.next_of_ahead ahead
    exact ⟨_, _, .constant kind found, e, rfl⟩
  | var kind found =>
    refine .of_operand fun c rest ahead _ => ?_
    obtain ⟨rfl, e⟩ := Cursor.next_of_ahead ahead
    exact ⟨_, _, .var kind found, e, rfl⟩
  | paren opening _ closing ih =>
    refine .of_operand fun c rest ahead _ => ?_
    rw [List.cons_append, List.append_assoc] at ahead
    obtain ⟨rfl, e⟩ := Cursor.next_of_ahead ahead
    obtain ⟨after, ended, reads⟩ := ih c.next.2 _ e (below_of_kind closing (by simp))
    obtain ⟨inner, last, h, e', rfl⟩ := reads.expr (Nat.zero_le _)
      (by rw [ended]; exact below_of_kind closing (by simp))
    obtain ⟨rfl, e''⟩ := Cursor.next_of_ahead (e'.trans ended)
    exact ⟨_, _, .paren opening h closing, e'', Expr.tree_withSpan _ _⟩
  | callEmpty kind found opening closing accepted =>
    refine .of_operand fun c rest ahead _ => ?_
    obtain ⟨rfl, e⟩ := Cursor.next_of_ahead ahead
    obtain ⟨rfl, e'⟩ := Cursor.next_of_ahead e
    obtain ⟨rfl, e''⟩ := Cursor.next_of_ahead e'
    exact ⟨_, _, .function kind found (.callEmpty opening closing accepted), e'', rfl⟩
  | @call _ token _ _ primitive parts _ kind found opening derived separated closing accepted ih =>
    refine .of_operand fun c rest ahead _ => ?_
    rw [List.cons_append, List.cons_append, List.append_assoc] at ahead
    obtain ⟨rfl, e⟩ := Cursor.next_of_ahead ahead
    obtain ⟨rfl, e'⟩ := Cursor.next_of_ahead e
    have nonempty : 0 < parts.length := by
      have := List.length_pos_iff.mpr separated.ne_nil
      rwa [List.length_map] at this
    obtain ⟨first, more, rfl, starts⟩ := separated.starts fun part hp => by
      obtain ⟨arg, ha, rfl⟩ := List.mem_map.mp hp
      exact (derived arg ha).starts
    obtain ⟨rfl, -⟩ := Cursor.next_of_ahead e'
    have fits : ∀ most, primitive.arity.most? = some most → 1 + parts.length ≤ most + 1 := by
      intro most hm
      have := Arity.le_of_accepts accepted hm
      omega
    obtain ⟨args, last, h, ended, trees⟩ :=
      reads_args separated ih (c.next.2.next.2.ahead_peek.trans e') closing fits
    have length : args.length = parts.length := by
      rw [← List.length_map (f := Expr.tree), ← Expr.treeArgs_eq_map, trees, List.length_map]
    refine ⟨_, last, .function kind found (.call opening ?_ ?_ h (by rwa [length])), ended, ?_⟩
    · intro closed
      rw [closed] at starts
      cases starts
    · intro none
      have := Arity.le_of_accepts accepted none
      omega
    · rw [Expr.tree, trees]

/-- A text is read if and only if none of its tokens is invalid and they are a formula
with no more levels than may be opened; and then the text stands for its tree. -/
theorem parse_ok_iff (scope : Scope) (maxLevels : Nat) (source : String) (t : Tree) :
    (∃ e, parse scope maxLevels source = .ok e ∧ e.tree = t) ↔
      (∀ token ∈ tokens source, token.Valid) ∧ IsFormula scope maxLevels (tokens source) t := by
  simp only [parse, Parser.parse_eq_ok_iff, Parser.ofString]
  constructor
  · rintro ⟨e, ⟨-, last, reads, ended⟩, rfl⟩
    obtain ⟨levels, ts, rfl, ahead, derived, -⟩ := reads.sound (by decide)
    rw [Cursor.ahead_peek, ended, List.append_nil] at ahead
    rw [tokens, ahead]
    exact ⟨derived.valid, levels, rfl, derived⟩
  · rintro ⟨-, levels, rfl, derived⟩
    obtain ⟨middle, ended, reads⟩ := derived.readable (Cursor.ofString source).peek.2 []
      (by rw [Cursor.ahead_peek, List.append_nil]; rfl) (by simp [Below])
    obtain ⟨e, last, h, e', rfl⟩ := reads.expr (Nat.zero_le _) (by rw [ended]; simp [Below])
    exact ⟨e, ⟨derived.ne_nil, last, h, e'.trans ended⟩, rfl⟩

end Formula
