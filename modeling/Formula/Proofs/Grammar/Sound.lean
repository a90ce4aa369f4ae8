import Formula.Compilation
import Formula.Proofs.Grammar
import Formula.Proofs.Reads

/-!
# What is read is a formula

Every expression that is read stands for the tree of a derivation from the tokens that
were taken for it (`Reads.sound`). The layer of the derivation follows from how tightly
operators had to bind (`Layer.ofPower`). The operators of a run are taken one by one, and
with each the part to their left reaches a layer that holds the operators which may
still follow (`Derives.binary`).
-/

namespace Formula

/-- The layer whose operators bind at least as tightly as a power says. -/
def Layer.ofPower (power : Nat) : Layer :=
  if power ≤ 1 then .sum
  else if power ≤ 3 then .product
  else if power ≤ 6 then .signed
  else .atom

/-- If an operator comes first, it binds less tightly on its left than a power says. -/
def Below (power : Nat) (ts : List Token) : Prop :=
  ∀ token ∈ ts.head?, ∀ op, token.kind = .operator op → op.leftPower < power

theorem Below.mono {a b : Nat} {ts : List Token} (h : Below a ts) (le : a ≤ b) : Below b ts :=
  fun token ht op kind => Nat.lt_of_lt_of_le (h token ht op kind) le

/-- No operator binds more tightly than `^` does. -/
theorem Operator.leftPower_lt (op : Operator) : op.leftPower < 8 := by
  cases op <;> decide

theorem below_top (ts : List Token) : Below 8 ts :=
  fun _ _ op _ => op.leftPower_lt

theorem below_ahead_iff {power : Nat} {c : Cursor} :
    Below power c.ahead ↔ ∀ op, c.next.1.kind = .operator op → op.leftPower < power := by
  cases finish : c.next.1.isFinish with
  | true =>
    have none : ∀ op, c.next.1.kind ≠ .operator op := by
      intro op kind
      simp [Token.isFinish, kind, Token.Kind.isFinish] at finish
    simp [Below, Cursor.ahead_of_finish finish, none]
  | false => simp [Below, Cursor.ahead_of_more finish]

namespace Derives

variable {scope : Scope} {levels : Nat} {ts us vs : List Token} {t left right : Tree}

/-- The layers from one power to the next are the same, except where one ends. -/
theorem loosen_one {a : Nat} (h : Derives scope levels (.ofPower (a + 1)) ts t) :
    Derives scope levels (.ofPower a) ts t := by
  by_cases h1 : a = 1
  · subst h1; exact .ofProduct h
  by_cases h3 : a = 3
  · subst h3; exact .ofSigned h
  by_cases h6 : a = 6
  · subst h6; exact .ofPower (.ofAtom h)
  rwa [show Layer.ofPower a = .ofPower (a + 1) by unfold Layer.ofPower; grind]

/-- What a layer derives, the layers of operators that bind less tightly derive too. -/
theorem loosen {a b : Nat} (h : Derives scope levels (.ofPower a) ts t) (le : b ≤ a) :
    Derives scope levels (.ofPower b) ts t := by
  induction le with
  | refl => exact h
  | step _ ih => exact ih h.loosen_one

/-- An operator between operands of the layers that its powers ask for. -/
theorem binary {token : Token} {op : Operator}
    (hl : Derives scope (levels + 1) (.ofPower op.leftPower) us left)
    (kind : token.kind = .operator op)
    (hr : Derives scope levels (.ofPower op.rightPower) vs right) :
    Derives scope (levels + 1) (.ofPower (min op.leftPower op.rightPower))
      (us ++ token :: vs) (.binary op left right) := by
  cases op with
  | add => exact .sum hl kind (.inl rfl) hr
  | sub => exact .sum hl kind (.inr rfl) hr
  | mul => exact .product hl kind (.inl rfl) hr
  | div => exact .product hl kind (.inr (.inl rfl)) hr
  | mod => exact .product hl kind (.inr (.inr rfl)) hr
  | pow => exact .ofPower (.power hl kind hr)

end Derives

open Except (ok error)

/-- What is said of an answer: it stands for the tree of a derivation from the tokens
taken, and what follows does not bind tightly enough to belong to it. Of steps it is
said for each left operand that they could go on from. -/
def Phrase.Sound (scope : Scope) :
    (phrase : Phrase) → Cursor → Except Diagnostic phrase.Answer → Cursor → Prop
  | _, _, error _, _ => True
  | expr maxLevels least, c, ok e, last =>
    least ≤ 6 → ∃ levels ts, maxLevels = levels + 1 ∧ c.ahead = ts ++ last.ahead ∧
      Derives scope levels (.ofPower least) ts e.tree ∧ Below least last.ahead
  | operand levels, c, ok e, last =>
    ∃ power ts, 6 ≤ power ∧ c.ahead = ts ++ last.ahead ∧
      Derives scope levels (.ofPower power) ts e.tree ∧ Below (power + 1) last.ahead
  | steps levels least, c, ok run, last =>
    least ≤ 6 → ∃ ts, c.ahead = ts ++ last.ahead ∧ Below least last.ahead ∧
      ∀ power us left, least ≤ power → Derives scope levels (.ofPower power) us left →
        Below (power + 1) c.ahead →
        Derives scope levels (.ofPower least) (us ++ ts) (Expr.treeSteps left run)
  | call levels func _, c, ok e, last =>
    ∃ ts, c.ahead = ts ++ last.ahead ∧ ∀ (token : Token) (primitive : Primitive),
      token.kind = .name → scope.resolve token.text = some (.function primitive) →
      func = ⟨token.text, primitive⟩ → Derives scope levels .atom (token :: ts) e.tree
  | args maxLevels _ _, c, ok (list, _), last =>
    ∃ (levels : Nat) (parts : List (List Token × Tree)) (ts : List Token) (closing : Token),
      maxLevels = levels + 1 ∧
      c.ahead = ts ++ closing :: last.ahead ∧ closing.kind = .closeParen ∧
      (∀ part ∈ parts, Derives scope levels .sum part.1 part.2) ∧
      Separated (parts.map Prod.fst) ts ∧ parts.map Prod.snd = Expr.treeArgs list

theorem Reads.sound {scope : Scope} {phrase : Phrase} {c last : Cursor}
    {answer : Except Diagnostic phrase.Answer} (h : Reads scope phrase c answer last) :
    phrase.Sound scope c answer last := by
  induction h with
  | tooDeep | exprFails | unbound | parenFails | parenOpen | closed | noOperand | stepFails
  | callUnopened | callMissing | callSurplus | callFails | callTooFew | argFails | argSurplus
  | argOpen => trivial
  | @expr levels least c after last first answer _ _ ih₁ ih₂ =>
    cases answer with
    | error => trivial
    | ok steps =>
      intro hl
      obtain ⟨power, us, hp, e₁, hd, below⟩ := ih₁
      obtain ⟨vs, e₂, hb, hs⟩ := ih₂ hl
      refine ⟨levels, us ++ vs, rfl, by rw [e₁, e₂, List.append_assoc], ?_, hb⟩
      rw [Expr.tree_chain]
      exact hs power us first.tree (by omega) hd below
  | @number _ c _ kind =>
    exact ⟨7, [c.next.1], by omega, Cursor.ahead_of_kind kind rfl, .number kind, below_top _⟩
  | @var _ c _ kind found =>
    exact ⟨7, [c.next.1], by omega, Cursor.ahead_of_kind kind rfl, .var kind found, below_top _⟩
  | @constant _ c _ kind found =>
    exact ⟨7, [c.next.1], by omega, Cursor.ahead_of_kind kind rfl, .constant kind found,
      below_top _⟩
  | @function _ c _ _ answer kind found _ ih =>
    cases answer with
    | error => trivial
    | ok e =>
      obtain ⟨ts, e₁, hd⟩ := ih
      exact ⟨7, c.next.1 :: ts, by omega, Cursor.ahead_cons kind rfl e₁, hd _ _ kind found rfl,
        below_top _⟩
  | @paren _ c closing _ kind _ close ih =>
    obtain ⟨levels, ts, rfl, e₁, hd, -⟩ := ih (by omega)
    refine ⟨7, c.next.1 :: (ts ++ [closing.next.1]), by omega, ?_, ?_, below_top _⟩
    · rw [Cursor.ahead_of_kind kind rfl, e₁, Cursor.ahead_of_kind close rfl]
      simp
    · rw [Expr.tree_withSpan]
      exact .paren kind hd close
  | @minus _ c _ answer kind _ ih =>
    cases answer with
    | error => trivial
    | ok e =>
      obtain ⟨levels, ts, rfl, e₁, hd, below⟩ := ih (by decide)
      exact ⟨6, c.next.1 :: ts, by omega, Cursor.ahead_cons kind rfl e₁, .minus kind hd,
        below.mono (by decide)⟩
  | @plus _ c _ answer kind _ ih =>
    cases answer with
    | error => trivial
    | ok e =>
      obtain ⟨levels, ts, rfl, e₁, hd, below⟩ := ih (by decide)
      refine ⟨6, c.next.1 :: ts, by omega, Cursor.ahead_cons kind rfl e₁, ?_,
        below.mono (by decide)⟩
      rw [Expr.tree_withSpan]
      exact .plus kind hd
  | @stop _ _ c weak =>
    intro _
    rw [← below_ahead_iff] at weak
    refine ⟨[], by rw [Cursor.ahead_peek]; rfl, by rwa [Cursor.ahead_peek], ?_⟩
    intro power us left hp hd _
    rw [List.append_nil]
    exact hd.loosen hp
  | @step _ least c after last op operand answer kind strong _ _ ih₁ ih₂ =>
    cases answer with
    | error => trivial
    | ok steps =>
      intro hl
      obtain ⟨levels, us, rfl, e₁, hr, below⟩ := ih₁ (by cases op <;> decide)
      obtain ⟨vs, e₂, hb, hs⟩ := ih₂ hl
      have ahead : c.ahead = c.next.1 :: (us ++ vs) ++ last.ahead := by
        rw [Cursor.ahead_of_kind kind rfl, e₁, e₂]; simp
      refine ⟨c.next.1 :: (us ++ vs), ahead, hb, fun power ts left hp hd hc => ?_⟩
      have le : op.leftPower < power + 1 := below_ahead_iff.mp hc op kind
      have grown := (hd.loosen (Nat.le_of_lt_succ le)).binary kind hr
      have := hs _ _ _ (by cases op <;> simp_all [Operator.leftPower, Operator.rightPower]) grown
        (below.mono (by cases op <;> decide))
      simpa [Expr.treeSteps] using this
  | @callEmpty _ _ _ c opening closing accepted =>
    refine ⟨[c.next.1, c.next.2.next.1], ?_, ?_⟩
    · rw [Cursor.ahead_of_kind opening rfl, Cursor.ahead_of_kind closing rfl]; rfl
    · rintro token primitive kind found rfl
      exact .callEmpty kind found opening closing accepted
  | @call _ _ _ _ c last args opening _ _ _ accepted ih =>
    obtain ⟨levels, parts, ts, closing, rfl, e₁, close, hd, separated, trees⟩ := ih
    rw [Cursor.ahead_peek] at e₁
    refine ⟨c.next.1 :: (ts ++ [closing]), ?_, ?_⟩
    · rw [Cursor.ahead_of_kind opening rfl, e₁]; simp
    · rintro token primitive kind found rfl
      have length : parts.length = args.length := by
        rw [← List.length_map Prod.snd, trees, Expr.treeArgs_eq_map, List.length_map]
      rw [Expr.tree, ← trees]
      exact .call kind found opening hd separated close (by rwa [length])
  | @arg _ _ _ c after last arg answer _ comma _ _ ih₁ ih₂ =>
    cases answer with
    | error => trivial
    | ok rest =>
      obtain ⟨levels, us, rfl, e₁, hd, -⟩ := ih₁ (by omega)
      obtain ⟨_, parts, ts, closing, ⟨⟩, e₂, close, hs, separated, trees⟩ := ih₂
      refine ⟨levels, (us, arg.tree) :: parts, us ++ after.next.1 :: ts, closing, rfl, ?_, close,
        List.forall_mem_cons.mpr ⟨hd, hs⟩, .more comma separated, ?_⟩
      · rw [e₁, Cursor.ahead_of_kind comma rfl, e₂]; simp
      · rw [List.map_cons, trees, Expr.treeArgs]
  | @argLast _ _ _ c after arg _ close ih =>
    obtain ⟨levels, us, rfl, e₁, hd, -⟩ := ih (by omega)
    refine ⟨levels, [(us, arg.tree)], us, after.next.1, rfl, ?_, close,
      List.forall_mem_singleton.mpr hd, .one, rfl⟩
    rw [e₁, Cursor.ahead_of_kind close rfl]

/-- The tokens of a text that is read are a formula. -/
theorem derives_of_parse {scope : Scope} {maxLevels : Nat} {source : String} {e : Expr}
    (h : parse scope maxLevels source = .ok e) :
    ∃ levels, Derives scope levels .sum (tokens source) e.tree := by
  obtain ⟨-, last, reads, ended⟩ := Parser.parse_eq_ok_iff.mp h
  obtain ⟨levels, ts, -, ahead, derived, -⟩ := reads.sound (by decide)
  rw [Cursor.ahead_peek, ended, List.append_nil] at ahead
  rw [← ahead] at derived
  exact ⟨levels, derived⟩

end Formula
