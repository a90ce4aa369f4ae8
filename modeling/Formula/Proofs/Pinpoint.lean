import Formula.Proofs.Grammar.Complete
import Formula.Proofs.Parses
import Formula.Proofs.Viable

/-!
# Errors are where they belong

The token of an error is told from its span (`Diagnostic.IsAt`). Nothing after that token has
been scanned and nothing after it matters, and what stands before it could have become a
formula (`parse_error_pinpoints`).
-/

namespace Formula

open Except (ok error)

/-- An error of a text is at the first of the rest of its tokens, or at its end if none is left. -/
def Diagnostic.IsAt (d : Diagnostic) (source : String) (before rest : List Token) : Prop :=
  tokens source = before ++ rest ∧ d.span = spanAt source.utf8ByteSize rest

theorem ordered_tokens (source : String) : Ordered source.utf8ByteSize (tokens source) := by
  rw [← Cursor.size_ofString]
  exact (Cursor.ordered_ahead rfl).1

/-- An error is at one token only. -/
theorem Diagnostic.IsAt.unique {d : Diagnostic} {source : String}
    {before rest before' rest' : List Token} (h : d.IsAt source before rest)
    (h' : d.IsAt source before' rest') : before = before' ∧ rest = rest' := by
  have ordered := ordered_tokens source
  rw [h.1] at ordered
  exact ordered.eq_of_spanAt (h.1.symm.trans h'.1) (h.2.symm.trans h'.2)

/-- An error is at the token that comes after as many as were taken. -/
theorem ErrorAt.isAt {source : String} {k : Nat} {d : Diagnostic} {last : Cursor}
    (h : ErrorAt (.ofString source) k d last) :
    d.IsAt source ((tokens source).take k) ((tokens source).drop k) := by
  refine ⟨(List.take_append_drop k _).symm, ?_⟩
  rw [h.span, Cursor.span_nth rfl, Cursor.size_ofString]
  rfl

/-- What comes before an error can be completed to a formula, unless the error is late. -/
theorem Parses.viable {scope : Scope} {levels : Nat} {c : Cursor} {d : Diagnostic} {q : Parser}
    {size : Nat} (h : Parses scope levels c (error d) q) (ends : c.EndsAt size) :
    ∃ before rest, c.ahead = before ++ rest ∧ d.span = spanAt size rest ∧
      (¬ d.Late before → Completable scope .sum before) := by
  cases h with
  | empty =>
    refine ⟨[], c.ahead, rfl, ends.span, fun _ => ?_⟩
    exact (Completable.nil scope).loosen (a := 6) (b := 0) (by omega)
  | fails _ reads =>
    obtain ⟨before, rest, ahead, span, viable⟩ := reads.viable (ends.past (.peek c))
    rw [Cursor.ahead_peek] at ahead
    exact ⟨before, rest, ahead, span, fun late => viable late (by omega)⟩
  | @more e last _ reads _ =>
    obtain ⟨_, before, -, ahead, derived, -⟩ := reads.sound (by omega)
    obtain ⟨k, taken, -⟩ := reads.ends
    rw [Cursor.ahead_peek] at ahead
    refine ⟨before, last.ahead, ahead, ?_, fun _ => .of_derivable ⟨_, _, derived⟩⟩
    rw [Token.span_refuse]
    exact (ends.past ((Cursor.Past.peek c).trans taken)).span

/-- A text whose tokens are a formula is read, with levels enough. -/
theorem Derives.parse_eq {scope : Scope} {levels : Nat} {source : String} {t : Tree}
    (h : Derives scope levels .sum (tokens source) t) :
    ∃ e, parse scope (levels + 1) source = ok e ∧ e.tree = t := by
  obtain ⟨middle, ended, reads⟩ := h.readable (Cursor.ofString source).peek.2 []
    (by rw [Cursor.ahead_peek, List.append_nil]; rfl) (by simp [Below])
  obtain ⟨e, last, reads', e', same⟩ := reads.expr (Nat.zero_le _) (by rw [ended]; simp [Below])
  exact ⟨e, Parser.parse_eq_ok_iff.mpr ⟨h.ne_nil, last, reads', e'.trans ended⟩, same⟩

/-- Tokens of a text that can be completed start a text that is read. -/
theorem Completable.exists_parse {scope : Scope} {before : List Token}
    (h : Completable scope .sum before) (spelled : ∀ token ∈ before, token.Spelled) :
    ∃ source, before.map Token.word <+: (tokens source).map Token.word ∧
      ∃ enough, ∀ levels ≥ enough, ∃ e, parse scope levels source = ok e := by
  obtain ⟨more, hm, levels, t, derived⟩ := h
  obtain ⟨source, same⟩ := exists_tokens (List.forall_mem_append.mpr ⟨spelled, hm⟩)
  refine ⟨source, ?_, levels + 1, fun n le => ?_⟩
  · rw [same, List.map_append]
    exact List.prefix_append _ _
  · obtain ⟨n, rfl⟩ := Nat.exists_eq_add_of_le' (Nat.le_of_add_left_le le)
    have enough : levels ≤ n := by omega
    obtain ⟨e, parsed, -⟩ := ((derived.congr same).mono enough).parse_eq
    exact ⟨e, parsed⟩

/-- In front of tokens that are spelled the same, cursors agree but for spans. -/
theorem Cursor.agree_of_words {c c' : Cursor} {front rest front' rest' : List Token}
    (h : c.ahead = front ++ rest) (h' : c'.ahead = front' ++ rest')
    (same : front'.map Token.word = front.map Token.word) {k : Nat} (hk : k < front.length) :
    c.Agree (fun _ => .point 0) (fun _ => .point 0) k c' := by
  intro i hi
  have length : front'.length = front.length := by
    simpa using congrArg List.length same
  have at_i : c.nth i = front[i] := by
    rw [nth_getElem (by rw [h, List.length_append]; omega)]
    simp only [h]
    exact List.getElem_append_left _
  have at_i' : c'.nth i = front'[i] := by
    rw [nth_getElem (by rw [h', List.length_append]; omega)]
    simp only [h']
    exact List.getElem_append_left _
  have words := congrArg (·[i]?) same
  simp only [List.getElem?_map, at_i, at_i'] at words ⊢
  rw [List.getElem?_eq_getElem (by omega), List.getElem?_eq_getElem (by omega)] at words
  obtain ⟨kind, text⟩ := Token.word_eq_iff.mp (Option.some.inj words)
  exact ⟨kind, text, rfl⟩

/-- An error that is reported at a token is reported again, whatever comes after the token. -/
theorem Parses.again {scope : Scope} {levels : Nat} {c : Cursor} {d : Diagnostic} {q : Parser}
    (h : Parses scope levels c (error d) q) :
    ∃ k, ErrorAt c k d q.cursor ∧
      ∀ before token more, c.ahead = before ++ token :: more → before.length = k →
        ∀ (c' : Cursor) before' token' more', c'.ahead = before' ++ token' :: more' →
          (before' ++ [token']).map Token.word = (before ++ [token]).map Token.word →
          ∃ q', Parses scope levels c' (error ⟨d.fault, token'.span⟩) q' := by
  obtain ⟨k, ends, again⟩ := h.replay (f := fun _ => .point 0) (g := fun _ => .point 0)
    (fun _ _ => rfl) (fun _ _ => rfl)
  refine ⟨k, ends, ?_⟩
  rintro before token more ahead rfl c' before' token' more' ahead' same
  have length : before'.length = before.length := by
    simpa using congrArg List.length same
  have agree : c.Agree (fun _ => .point 0) (fun _ => .point 0) before.length c' :=
    Cursor.agree_of_words (by rw [ahead, List.append_cons]) (by rw [ahead', List.append_cons])
      same (by simp)
  obtain ⟨_, q', parses, ends', _ | @⟨_, d', fault, -⟩⟩ := again c' agree
  have span : d'.span = token'.span := by
    rw [ErrorAt.span ends', ← length, Cursor.nth_append ahead']
  obtain ⟨_, _⟩ := d'
  obtain rfl : _ = d.fault := fault
  obtain rfl : _ = token'.span := span
  exact ⟨q', parses⟩

/-- An error is at the first token after which the text cannot be a formula any more: nothing
after the token is scanned, the same error comes for every text whose tokens are spelled the
same up to there, and unless the error is late, the tokens before it start a text that can be
read with levels enough. -/
theorem parse_error_pinpoints {scope : Scope} {maxLevels : Nat} {source : String} {d : Diagnostic}
    {q : Parser} (h : (Parser.ofString source maxLevels).parse scope = (error d, q)) :
    ∃ before rest, d.IsAt source before rest ∧ q.cursor.position = d.span.stop ∧
      (∀ token more, rest = token :: more →
        ∀ source' before' token' more', tokens source' = before' ++ token' :: more' →
          (before' ++ [token']).map Token.word = (before ++ [token]).map Token.word →
          parse scope maxLevels source' = error ⟨d.fault, token'.span⟩) ∧
      (¬ d.Late before →
        ∃ source', before.map Token.word <+: (tokens source').map Token.word ∧
          ∃ enough, ∀ levels ≥ enough, ∃ e, parse scope levels source' = ok e) := by
  have parses : Parses scope maxLevels (.ofString source) (error d) q := parses_iff.mpr h
  obtain ⟨k, ends, again⟩ := parses.again
  obtain ⟨before, rest, ahead, span, viable⟩ := parses.viable (Cursor.endsAt_size rfl)
  rw [Cursor.size_ofString] at span
  have isAt : d.IsAt source before rest := ⟨ahead, span⟩
  refine ⟨before, rest, isAt, ends.position_eq rfl, ?_, fun late => ?_⟩
  · rintro token more rfl source' before' token' more' ahead' same
    have taken : before.length = k := by
      obtain ⟨h₁, h₂⟩ := ends.isAt.unique isAt
      have some := congrArg List.length h₂
      rw [← h₁, List.length_take]
      rw [List.length_drop, List.length_cons] at some
      omega
    obtain ⟨q', parses'⟩ := again before token more ahead taken (.ofString source') before' token'
      more' ahead' same
    exact congrArg Prod.fst (parses_iff.mp parses')
  · refine (viable late).exists_parse fun token ht => ?_
    refine Cursor.spelled_ahead (c := .ofString source) rfl token ?_
    rw [ahead]
    exact List.mem_append_left _ ht

/-- At a parenthesis that closes a call after an operator nothing more is scanned, and all up to
it starts a formula. -/
theorem parse_error_pinpoints_closed :
    ∃ q before rest, (Parser.ofString "2 * max(1 + ) - 7" 64).parse .empty =
        (error ⟨.unmatchedParen, ⟨12, 13⟩⟩, q) ∧
      Diagnostic.IsAt ⟨.unmatchedParen, ⟨12, 13⟩⟩ "2 * max(1 + ) - 7" before rest ∧
      q.cursor.position = 13 ∧
      ∃ source, before.map Token.word <+: (tokens source).map Token.word ∧
        ∃ enough, ∀ levels ≥ enough, ∃ e, parse .empty levels source = ok e := by
  have failed : (Parser.ofString "2 * max(1 + ) - 7" 64).error? .empty =
      some ⟨.unmatchedParen, ⟨12, 13⟩⟩ := by decide +kernel
  obtain ⟨q, failed⟩ := Parser.error?_eq_some_iff.mp failed
  obtain ⟨before, rest, isAt, position, -, completed⟩ := parse_error_pinpoints failed
  refine ⟨q, before, rest, failed, isAt, position, completed ?_⟩
  simp [Diagnostic.Late]

end Formula
