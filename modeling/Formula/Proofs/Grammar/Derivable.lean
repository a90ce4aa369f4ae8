import Formula.Proofs.Grammar.Sound
import Formula.Proofs.Spelling

/-!
# What can be derived

Derivations with levels enough (`Derivable`), in which parts are put together without counting
levels, and tokens after which a derivation can still be had (`Completable`). What tokens derive
depends on their words only (`Derives.congr`).
-/

namespace Formula

theorem Token.word_eq_iff {a b : Token} :
    a.word = b.word ↔ a.kind = b.kind ∧ a.text = b.text := by
  simp [Token.word]

theorem Token.kind_of_word {a b : Token} {kind : Kind} (h : a.word = b.word)
    (hb : b.kind = kind) : a.kind = kind :=
  (word_eq_iff.mp h).1.trans hb

theorem Derives.succ {scope : Scope} {levels : Nat} {layer : Layer} {ts : List Token} {t : Tree}
    (h : Derives scope levels layer ts t) : Derives scope (levels + 1) layer ts t := by
  induction h with
  | ofProduct _ ih => exact .ofProduct ih
  | sum _ kind additive _ ih₁ ih₂ => exact .sum ih₁ kind additive ih₂
  | ofSigned _ ih => exact .ofSigned ih
  | product _ kind multiplicative _ ih₁ ih₂ => exact .product ih₁ kind multiplicative ih₂
  | minus kind _ ih => exact .minus kind ih
  | plus kind _ ih => exact .plus kind ih
  | ofPower _ ih => exact .ofPower ih
  | power _ kind _ ih₁ ih₂ => exact .power ih₁ kind ih₂
  | ofAtom _ ih => exact .ofAtom ih
  | number kind => exact .number kind
  | constant kind found => exact .constant kind found
  | var kind found => exact .var kind found
  | paren opening _ closing ih => exact .paren opening ih closing
  | callEmpty kind found opening closing accepted =>
    exact .callEmpty kind found opening closing accepted
  | call kind found opening _ separated closing accepted ih =>
    exact .call kind found opening ih separated closing accepted

/-- More levels do no harm. -/
theorem Derives.mono {scope : Scope} {levels levels' : Nat} {layer : Layer} {ts : List Token}
    {t : Tree} (h : Derives scope levels layer ts t) (le : levels ≤ levels') :
    Derives scope levels' layer ts t := by
  induction le with
  | refl => exact h
  | step _ ih => exact ih.succ

/-! ## Words -/

section Words

variable {us vs ts : List Token} {token : Token}

/-- Tokens with the words of others fall into parts where the others do. -/
theorem map_word_append (h : ts.map Token.word = (us ++ vs).map Token.word) :
    ∃ us' vs', ts = us' ++ vs' ∧ us'.map Token.word = us.map Token.word ∧
      vs'.map Token.word = vs.map Token.word := by
  rw [List.map_append] at h
  exact List.map_eq_append_iff.mp h

theorem map_word_cons (h : ts.map Token.word = (token :: vs).map Token.word) :
    ∃ token' vs', ts = token' :: vs' ∧ token'.word = token.word ∧
      vs'.map Token.word = vs.map Token.word :=
  List.map_eq_cons_iff.mp h

theorem map_word_singleton (h : ts.map Token.word = [token].map Token.word) :
    ∃ token', ts = [token'] ∧ token'.word = token.word :=
  List.map_eq_singleton_iff.mp h

end Words

/-- Arguments that are derived from tokens with some words are derived, one by one, from others
with the same words. -/
theorem Separated.congr {scope : Scope} {levels : Nat} {args : List (List Token × Tree)}
    {ts ts' : List Token} (h : Separated (args.map Prod.fst) ts)
    (same : ts'.map Token.word = ts.map Token.word)
    (derived : ∀ arg ∈ args, ∀ us, us.map Token.word = arg.1.map Token.word →
      Derives scope levels .sum us arg.2) :
    ∃ args' : List (List Token × Tree), (∀ arg ∈ args', Derives scope levels .sum arg.1 arg.2) ∧
      Separated (args'.map Prod.fst) ts' ∧ args'.map Prod.snd = args.map Prod.snd := by
  generalize hl : args.map Prod.fst = lists at h
  induction h generalizing args ts' with
  | one =>
    obtain ⟨arg, rfl, rfl⟩ := List.map_eq_singleton_iff.mp hl
    exact ⟨[(ts', arg.2)],
      List.forall_mem_singleton.mpr (derived arg (List.mem_singleton_self _) ts' same), .one, rfl⟩
  | more comma _ ih =>
    obtain ⟨arg, more, rfl, rfl, rfl⟩ := List.map_eq_cons_iff.mp hl
    obtain ⟨us', rest', rfl, hu, hr⟩ := map_word_append same
    obtain ⟨comma', vs', rfl, hc, hv⟩ := map_word_cons hr
    obtain ⟨args', derived', separated, trees⟩ :=
      ih hv (fun arg ha => derived arg (List.mem_cons_of_mem _ ha)) rfl
    refine ⟨(us', arg.2) :: args', List.forall_mem_cons.mpr ⟨?_, derived'⟩,
      .more (Token.kind_of_word hc comma) separated, by simp [trees]⟩
    exact derived arg List.mem_cons_self us' hu

/-- What tokens derive depends on their words only. -/
theorem Derives.congr {scope : Scope} {levels : Nat} {layer : Layer} {ts ts' : List Token}
    {t : Tree} (h : Derives scope levels layer ts t)
    (same : ts'.map Token.word = ts.map Token.word) : Derives scope levels layer ts' t := by
  induction h generalizing ts' with
  | ofProduct _ ih => exact .ofProduct (ih same)
  | ofSigned _ ih => exact .ofSigned (ih same)
  | ofPower _ ih => exact .ofPower (ih same)
  | ofAtom _ ih => exact .ofAtom (ih same)
  | sum _ kind additive _ ih₁ ih₂ =>
    obtain ⟨us', rest', rfl, hu, hr⟩ := map_word_append same
    obtain ⟨token', vs', rfl, ht, hv⟩ := map_word_cons hr
    exact .sum (ih₁ hu) (Token.kind_of_word ht kind) additive (ih₂ hv)
  | product _ kind multiplicative _ ih₁ ih₂ =>
    obtain ⟨us', rest', rfl, hu, hr⟩ := map_word_append same
    obtain ⟨token', vs', rfl, ht, hv⟩ := map_word_cons hr
    exact .product (ih₁ hu) (Token.kind_of_word ht kind) multiplicative (ih₂ hv)
  | power _ kind _ ih₁ ih₂ =>
    obtain ⟨us', rest', rfl, hu, hr⟩ := map_word_append same
    obtain ⟨token', vs', rfl, ht, hv⟩ := map_word_cons hr
    exact .power (ih₁ hu) (Token.kind_of_word ht kind) (ih₂ hv)
  | minus kind _ ih =>
    obtain ⟨token', vs', rfl, ht, hv⟩ := map_word_cons same
    exact .minus (Token.kind_of_word ht kind) (ih hv)
  | plus kind _ ih =>
    obtain ⟨token', vs', rfl, ht, hv⟩ := map_word_cons same
    exact .plus (Token.kind_of_word ht kind) (ih hv)
  | number kind =>
    obtain ⟨token', rfl, ht⟩ := map_word_singleton same
    exact .number (Token.kind_of_word ht kind)
  | constant kind found =>
    obtain ⟨token', rfl, ht⟩ := map_word_singleton same
    rw [← (Token.word_eq_iff.mp ht).2] at found
    exact .constant (Token.kind_of_word ht kind) found
  | var kind found =>
    obtain ⟨token', rfl, ht⟩ := map_word_singleton same
    rw [← (Token.word_eq_iff.mp ht).2] at found ⊢
    exact .var (Token.kind_of_word ht kind) found
  | paren opening _ closing ih =>
    obtain ⟨opening', rest', rfl, ho, hr⟩ := map_word_cons same
    obtain ⟨us', rest', rfl, hu, hr⟩ := map_word_append hr
    obtain ⟨closing', rfl, hc⟩ := map_word_singleton hr
    exact .paren (Token.kind_of_word ho opening) (ih hu) (Token.kind_of_word hc closing)
  | callEmpty kind found opening closing accepted =>
    obtain ⟨token', rest', rfl, ht, hr⟩ := map_word_cons same
    obtain ⟨opening', rest', rfl, ho, hr⟩ := map_word_cons hr
    obtain ⟨closing', rfl, hc⟩ := map_word_singleton hr
    rw [← (Token.word_eq_iff.mp ht).2] at found ⊢
    exact .callEmpty (Token.kind_of_word ht kind) found (Token.kind_of_word ho opening)
      (Token.kind_of_word hc closing) accepted
  | call kind found opening _ separated closing accepted ih =>
    obtain ⟨token', rest', rfl, ht, hr⟩ := map_word_cons same
    obtain ⟨opening', rest', rfl, ho, hr⟩ := map_word_cons hr
    obtain ⟨us', rest', rfl, hu, hr⟩ := map_word_append hr
    obtain ⟨closing', rfl, hc⟩ := map_word_singleton hr
    obtain ⟨args', derived', separated', trees⟩ :=
      separated.congr hu fun arg ha us same => ih arg ha same
    rw [← (Token.word_eq_iff.mp ht).2] at found ⊢
    rw [← trees]
    have length := congrArg List.length trees
    rw [List.length_map, List.length_map] at length
    exact .call (Token.kind_of_word ht kind) found (Token.kind_of_word ho opening) derived'
      separated' (Token.kind_of_word hc closing) (by rwa [length])

/-! ## Parts put together -/

/-- Tokens that are derived in a layer, with levels enough. -/
def Derivable (scope : Scope) (layer : Layer) (ts : List Token) : Prop :=
  ∃ levels t, Derives scope levels layer ts t

namespace Derivable

variable {scope : Scope} {us vs ts : List Token} {token opening closing : Token}

theorem loosen {a b : Nat} (h : Derivable scope (.ofPower a) ts) (le : b ≤ a) :
    Derivable scope (.ofPower b) ts := by
  obtain ⟨levels, t, h⟩ := h
  exact ⟨levels, t, h.loosen le⟩

theorem signed (h : Derivable scope .atom ts) : Derivable scope .signed ts := by
  obtain ⟨levels, t, h⟩ := h
  exact ⟨levels, t, .ofPower (.ofAtom h)⟩

theorem sum (h : Derivable scope .signed ts) : Derivable scope .sum ts := by
  obtain ⟨levels, t, h⟩ := h
  exact ⟨levels, t, .ofProduct (.ofSigned h)⟩

theorem binary {op : Operator} (hl : Derivable scope (.ofPower op.leftPower) us)
    (kind : token.kind = .operator op) (hr : Derivable scope (.ofPower op.rightPower) vs) :
    Derivable scope (.ofPower (min op.leftPower op.rightPower)) (us ++ token :: vs) := by
  obtain ⟨m, left, hl⟩ := hl
  obtain ⟨n, right, hr⟩ := hr
  have hl := hl.mono (show m ≤ max m n + 1 by omega)
  exact ⟨max m n + 1, _, hl.binary kind (hr.mono (Nat.le_max_right m n))⟩

theorem minus (kind : token.kind = .operator .sub) (h : Derivable scope .signed ts) :
    Derivable scope .signed (token :: ts) := by
  obtain ⟨levels, t, h⟩ := h
  exact ⟨levels + 1, _, .minus kind h⟩

theorem plus (kind : token.kind = .operator .add) (h : Derivable scope .signed ts) :
    Derivable scope .signed (token :: ts) := by
  obtain ⟨levels, t, h⟩ := h
  exact ⟨levels + 1, t, .plus kind h⟩

theorem paren (ho : opening.kind = .openParen) (h : Derivable scope .sum ts)
    (hc : closing.kind = .closeParen) :
    Derivable scope .atom (opening :: (ts ++ [closing])) := by
  obtain ⟨levels, t, h⟩ := h
  exact ⟨levels + 1, t, .paren ho h hc⟩

end Derivable

/-- The tokens are derived one after the other, with commas between them, as some number of
sums. -/
def Arguments (scope : Scope) (count : Nat) (ts : List Token) : Prop :=
  ∃ (levels : Nat) (args : List (List Token × Tree)), args.length = count ∧
    (∀ arg ∈ args, Derives scope levels .sum arg.1 arg.2) ∧ Separated (args.map Prod.fst) ts

/-- One more sequence after others. -/
theorem Separated.snoc {parts : List (List Token)} {ts us : List Token} {comma : Token}
    (h : Separated parts ts) (hc : comma.kind = .comma) :
    Separated (parts ++ [us]) (ts ++ comma :: us) := by
  induction h with
  | one => exact .more hc .one
  | more hc' _ ih =>
    rw [List.append_assoc, List.cons_append]
    exact .more hc' ih

namespace Arguments

variable {scope : Scope} {count : Nat} {ts us : List Token} {token opening closing comma : Token}
  {primitive : Primitive}

theorem one (h : Derivable scope .sum ts) : Arguments scope 1 ts := by
  obtain ⟨levels, t, h⟩ := h
  exact ⟨levels, [(ts, t)], rfl, List.forall_mem_singleton.mpr h, .one⟩

theorem cons (h : Derivable scope .sum us) (hc : comma.kind = .comma)
    (hs : Arguments scope count ts) : Arguments scope (count + 1) (us ++ comma :: ts) := by
  obtain ⟨m, t, h⟩ := h
  obtain ⟨n, args, rfl, hs, separated⟩ := hs
  refine ⟨max m n, (us, t) :: args, rfl, List.forall_mem_cons.mpr ⟨?_, fun arg ha => ?_⟩,
    .more hc separated⟩
  · exact h.mono (Nat.le_max_left m n)
  · exact (hs arg ha).mono (Nat.le_max_right m n)

theorem snoc (hs : Arguments scope count ts) (hc : comma.kind = .comma)
    (h : Derivable scope .sum us) : Arguments scope (count + 1) (ts ++ comma :: us) := by
  obtain ⟨m, t, h⟩ := h
  obtain ⟨n, args, rfl, hs, separated⟩ := hs
  refine ⟨max m n, args ++ [(us, t)], by simp, List.forall_mem_append.mpr ⟨fun arg ha => ?_, ?_⟩,
    ?_⟩
  · exact (hs arg ha).mono (Nat.le_max_right m n)
  · exact List.forall_mem_singleton.mpr (h.mono (Nat.le_max_left m n))
  · rw [List.map_append]
    exact separated.snoc hc

/-- Arguments in parentheses after the name of a function that accepts them. -/
theorem call (hs : Arguments scope count ts) (kind : token.kind = .name)
    (found : scope.resolve token.text = some (.function primitive))
    (ho : opening.kind = .openParen) (hc : closing.kind = .closeParen)
    (accepted : primitive.arity.accepts count = true) :
    Derivable scope .atom (token :: opening :: (ts ++ [closing])) := by
  obtain ⟨levels, args, rfl, hs, separated⟩ := hs
  exact ⟨levels + 1, _, .call kind found ho hs separated hc accepted⟩

end Arguments

/-! ## Tokens to go on with -/

namespace Token

/-- The number zero, which any operand can be. -/
def zero : Token :=
  ⟨(take '0' []).kind, .point 0, "0"⟩

/-- An opening parenthesis. -/
def opening : Token :=
  ⟨.openParen, .point 0, "("⟩

/-- A closing parenthesis. -/
def closing : Token :=
  ⟨.closeParen, .point 0, ")"⟩

/-- A comma. -/
def comma : Token :=
  ⟨.comma, .point 0, ","⟩

theorem spelled_zero : zero.Spelled :=
  spelled_single (c := '0') (by decide) rfl rfl _

theorem spelled_opening : opening.Spelled :=
  spelled_single (c := '(') (by decide) rfl rfl _

theorem spelled_closing : closing.Spelled :=
  spelled_single (c := ')') (by decide) rfl rfl _

theorem spelled_comma : comma.Spelled :=
  spelled_single (c := ',') (by decide) rfl rfl _

end Token

theorem derivable_zero (scope : Scope) : Derivable scope .atom [.zero] := by
  obtain ⟨value, kind⟩ : ∃ value, Token.zero.kind = .number value := ⟨_, rfl⟩
  exact ⟨0, _, .number kind⟩

/-- Tokens that start what can be derived in a layer, with some words after them. -/
def Completable (scope : Scope) (layer : Layer) (ts : List Token) : Prop :=
  ∃ more, (∀ token ∈ more, token.Spelled) ∧ Derivable scope layer (ts ++ more)

namespace Completable

variable {scope : Scope} {layer : Layer} {us vs ts : List Token} {token opening : Token}

theorem of_derivable (h : Derivable scope layer ts) : Completable scope layer ts :=
  ⟨[], List.forall_mem_nil _, by rwa [List.append_nil]⟩

theorem of_append (us : List Token) (h : Completable scope layer (us ++ vs))
    (hv : ∀ token ∈ vs, token.Spelled) : Completable scope layer us := by
  obtain ⟨more, hm, h⟩ := h
  exact ⟨vs ++ more, List.forall_mem_append.mpr ⟨hv, hm⟩, by rwa [← List.append_assoc]⟩

theorem loosen {a b : Nat} (h : Completable scope (.ofPower a) ts) (le : b ≤ a) :
    Completable scope (.ofPower b) ts := by
  obtain ⟨more, hm, h⟩ := h
  exact ⟨more, hm, h.loosen le⟩

theorem signed (h : Completable scope .atom ts) : Completable scope .signed ts := by
  obtain ⟨more, hm, h⟩ := h
  exact ⟨more, hm, h.signed⟩

/-- Where nothing has been read, everything is still to come. -/
theorem nil (scope : Scope) : Completable scope .signed [] :=
  ⟨[.zero], List.forall_mem_singleton.mpr Token.spelled_zero, (derivable_zero scope).signed⟩

theorem binary {op : Operator} (hl : Derivable scope (.ofPower op.leftPower) us)
    (kind : token.kind = .operator op) (hr : Completable scope (.ofPower op.rightPower) vs) :
    Completable scope (.ofPower (min op.leftPower op.rightPower)) (us ++ token :: vs) := by
  obtain ⟨more, hm, hr⟩ := hr
  exact ⟨more, hm, by simpa using hl.binary kind hr⟩

theorem minus (kind : token.kind = .operator .sub) (h : Completable scope .signed ts) :
    Completable scope .signed (token :: ts) := by
  obtain ⟨more, hm, h⟩ := h
  exact ⟨more, hm, h.minus kind⟩

theorem plus (kind : token.kind = .operator .add) (h : Completable scope .signed ts) :
    Completable scope .signed (token :: ts) := by
  obtain ⟨more, hm, h⟩ := h
  exact ⟨more, hm, h.plus kind⟩

theorem paren (ho : opening.kind = .openParen) (h : Completable scope .sum ts) :
    Completable scope .atom (opening :: ts) := by
  obtain ⟨more, hm, h⟩ := h
  refine ⟨more ++ [.closing],
    List.forall_mem_append.mpr ⟨hm, List.forall_mem_singleton.mpr Token.spelled_closing⟩, ?_⟩
  have closed := h.paren ho (show Token.closing.kind = .closeParen from rfl)
  rwa [List.append_assoc] at closed

end Completable

/-- Some number of arguments from a number on is accepted, if that is not too many. -/
theorem Arity.exists_accepts (arity : Arity) {count : Nat}
    (fits : ∀ most, arity.most? = some most → count ≤ most) :
    ∃ more, arity.accepts (count + more) = true := by
  cases arity with
  | exactly n =>
    have le : count ≤ n := fits n rfl
    exact ⟨n - count, by simp [accepts, Nat.add_sub_cancel' le]⟩
  | atLeast n => exact ⟨n, by simp [accepts]⟩

namespace Arguments

variable {scope : Scope} {count : Nat} {ts : List Token} {token opening : Token}
  {primitive : Primitive}

/-- More arguments can always be given. -/
theorem fill (hs : Arguments scope count ts) (more : Nat) :
    ∃ us, (∀ token ∈ us, token.Spelled) ∧ Arguments scope (count + more) (ts ++ us) := by
  induction more with
  | zero => exact ⟨[], List.forall_mem_nil _, by rwa [List.append_nil]⟩
  | succ more ih =>
    obtain ⟨us, hu, h⟩ := ih
    refine ⟨us ++ [.comma, .zero], List.forall_mem_append.mpr ⟨hu, ?_⟩, ?_⟩
    · exact List.forall_mem_cons.mpr
        ⟨Token.spelled_comma, List.forall_mem_singleton.mpr Token.spelled_zero⟩
    · rw [← List.append_assoc]
      exact h.snoc rfl (derivable_zero scope).signed.sum

/-- A call that is not too long can be completed. -/
theorem completable (hs : Arguments scope count ts) (kind : token.kind = .name)
    (found : scope.resolve token.text = some (.function primitive))
    (ho : opening.kind = .openParen)
    (fits : ∀ most, primitive.arity.most? = some most → count ≤ most) :
    Completable scope .atom (token :: opening :: ts) := by
  obtain ⟨more, accepted⟩ := primitive.arity.exists_accepts fits
  obtain ⟨us, hu, h⟩ := hs.fill more
  refine ⟨us ++ [.closing],
    List.forall_mem_append.mpr ⟨hu, List.forall_mem_singleton.mpr Token.spelled_closing⟩, ?_⟩
  have closed := h.call kind found ho (show Token.closing.kind = .closeParen from rfl) accepted
  rwa [List.append_assoc] at closed

end Arguments

/-- A call of which nothing but the parenthesis was read can be completed. -/
theorem completable_call {scope : Scope} {token opening : Token} {primitive : Primitive}
    (kind : token.kind = .name) (found : scope.resolve token.text = some (.function primitive))
    (ho : opening.kind = .openParen) : Completable scope .atom [token, opening] := by
  obtain ⟨count, accepted⟩ := primitive.arity.exists_accepts (fun _ _ => Nat.zero_le _)
  rw [Nat.zero_add] at accepted
  cases count with
  | zero =>
    exact ⟨[.closing], List.forall_mem_singleton.mpr Token.spelled_closing,
      0, _, .callEmpty kind found ho rfl accepted⟩
  | succ count =>
    obtain ⟨us, hu, h⟩ := (Arguments.one (derivable_zero scope).signed.sum).fill count
    rw [Nat.add_comm] at h
    refine ⟨Token.zero :: (us ++ [.closing]), List.forall_mem_cons.mpr ⟨Token.spelled_zero,
      List.forall_mem_append.mpr ⟨hu, List.forall_mem_singleton.mpr Token.spelled_closing⟩⟩, ?_⟩
    exact h.call kind found ho (show Token.closing.kind = .closeParen from rfl) accepted

end Formula
