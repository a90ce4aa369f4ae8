import Formula.Proofs.Pinpoint
import Formula.Proofs.Relocation
import Formula.Proofs.Spans

/-!
# White space

What stands between the tokens of a text is white space or nothing. If their words are written
again with other white space between them, the new text has the same tokens, but for where they
stand, and so it has the same program, or none for the same reason at the same tokens
(`compile_spaced`).

To tell that two spans stand for the same tokens in two texts, they are counted in tokens
instead of bytes (`Span.ranks`).
-/

namespace Formula

open Except (ok error)

/-! ## Counting in tokens -/

/-- How many tokens start before a byte. -/
def rank (ts : List Token) (byte : Nat) : Nat :=
  ts.countP fun token => decide (token.span.start < byte)

/-- A span counted in tokens. -/
def Span.ranks (ts : List Token) (a : Span) : Span :=
  ⟨rank ts a.start, rank ts a.stop⟩

theorem Span.spread_ranks (ts : List Token) : Span.Spread (ranks ts) :=
  fun _ _ => rfl

theorem rank_append (ts us : List Token) (byte : Nat) :
    rank (ts ++ us) byte = rank ts byte + rank us byte :=
  List.countP_append

theorem rank_eq_length {ts : List Token} {byte : Nat}
    (h : ∀ token ∈ ts, token.span.start < byte) : rank ts byte = ts.length :=
  List.countP_eq_length.mpr fun token ht => decide_eq_true (h token ht)

theorem rank_eq_zero {ts : List Token} {byte : Nat}
    (h : ∀ token ∈ ts, byte ≤ token.span.start) : rank ts byte = 0 :=
  List.countP_eq_zero.mpr fun token ht => by simpa using h token ht

namespace Ordered

variable {size : Nat} {token : Token} {ts before rest : List Token}

/-- A token after some others goes from their number to the next one. -/
theorem ranks_token (h : Ordered size (before ++ token :: rest)) :
    token.span.ranks (before ++ token :: rest) = ⟨before.length, before.length + 1⟩ := by
  obtain ⟨-, later, earlier⟩ := List.pairwise_append.mp h.apart
  have own : token.span.start < token.span.stop := (h.inside token (by simp)).1
  have front : ∀ a ∈ before, a.span.start < token.span.start := fun a ha =>
    Nat.lt_of_lt_of_le (h.inside a (by simp [ha])).1 (earlier a ha token List.mem_cons_self)
  have back : ∀ a ∈ rest, token.span.stop ≤ a.span.start := (List.pairwise_cons.mp later).1
  have start : rank (token :: rest) token.span.start = 0 :=
    rank_eq_zero (List.forall_mem_cons.mpr
      ⟨Nat.le_refl _, fun a ha => Nat.le_trans (Nat.le_of_lt own) (back a ha)⟩)
  have stop : rank (token :: rest) token.span.stop = 1 := by
    rw [← List.singleton_append, rank_append, rank_eq_zero back,
      rank_eq_length (List.forall_mem_singleton.mpr own)]
    rfl
  rw [Span.ranks, rank_append, rank_append, start, stop, rank_eq_length front,
    rank_eq_length fun a ha => Nat.lt_trans (front a ha) own]
  rfl

/-- All tokens start before the end of the text. -/
theorem rank_size (h : Ordered size ts) : rank ts size = ts.length :=
  rank_eq_length fun token ht =>
    Nat.lt_of_lt_of_le (h.inside token ht).1 (h.inside token ht).2

theorem ranks_spanAt (h : Ordered size ts) (k : Nat) :
    (spanAt size (ts.drop k)).ranks ts = ⟨min k ts.length, min (k + 1) ts.length⟩ := by
  by_cases more : k < ts.length
  · have split : ts = ts.take k ++ ts[k] :: ts.drop (k + 1) := by
      rw [← List.drop_eq_getElem_cons more, List.take_append_drop]
    have found := (split ▸ h).ranks_token
    rw [← split, List.length_take, Nat.min_eq_left (Nat.le_of_lt more)] at found
    rw [List.drop_eq_getElem_cons more, spanAt, found, Nat.min_eq_left (Nat.le_of_lt more),
      Nat.min_eq_left more]
  · rw [List.drop_eq_nil_of_le (Nat.not_lt.mp more), spanAt, Span.ranks, Span.point, h.rank_size,
      Nat.min_eq_right (Nat.not_lt.mp more), Nat.min_eq_right (by omega)]

end Ordered

/-! ## Places in two texts -/

/-- The span of the token after `k` others of a text, or of its end if there is none. -/
def tokenSpan (source : String) (k : Nat) : Span :=
  spanAt source.utf8ByteSize ((tokens source).drop k)

/-- Two errors of one fault at the same place of two texts, which is a token or the end. Values
that do not fit on the stack are an error at all the tokens that stand for one of them. -/
inductive Diagnostic.Corresponds (source source' : String) : Diagnostic → Diagnostic → Prop where
  | place (fault : Fault) (k : Nat) :
      Corresponds source source' ⟨fault, tokenSpan source k⟩ ⟨fault, tokenSpan source' k⟩
  | stretch (i j : Nat) : i < (tokens source).length → j < (tokens source).length →
      Corresponds source source'
        ⟨.nestingTooDeep, (tokenSpan source i).through (tokenSpan source j)⟩
        ⟨.nestingTooDeep, (tokenSpan source' i).through (tokenSpan source' j)⟩

/-- A span goes from the start of a token to the end of one. -/
def Span.OfTokens (source : String) (a : Span) : Prop :=
  ∃ i j, i < (tokens source).length ∧ j < (tokens source).length ∧
    a = (tokenSpan source i).through (tokenSpan source j)

theorem Span.OfTokens.through {source : String} {a b : Span} (ha : a.OfTokens source)
    (hb : b.OfTokens source) : (a.through b).OfTokens source := by
  obtain ⟨i, _, hi, _, rfl⟩ := ha
  obtain ⟨_, j, _, hj, rfl⟩ := hb
  exact ⟨i, j, hi, hj, rfl⟩

theorem ofTokens_of_mem {source : String} {token : Token} (h : token ∈ tokens source) :
    token.span.OfTokens source := by
  obtain ⟨i, hi, rfl⟩ := List.getElem_of_mem h
  refine ⟨i, i, hi, hi, ?_⟩
  rw [Span.through_self, tokenSpan, List.drop_eq_getElem_cons hi, spanAt]

/-- So does every span in the expression of a text. -/
theorem ofTokens_of_parse {scope : Scope} {maxLevels : Nat} {source : String} {e : Expr}
    (h : parse scope maxLevels source = ok e) : e.Spans (Span.OfTokens source) :=
  spans_of_parse (fun _ _ => .through) (fun _ => ofTokens_of_mem) h

theorem ranks_tokenSpan (source : String) (k : Nat) :
    (tokenSpan source k).ranks (tokens source) =
      ⟨min k (tokens source).length, min (k + 1) (tokens source).length⟩ :=
  (ordered_tokens source).ranks_spanAt k

theorem ranks_stretch {source : String} {i j : Nat} (hi : i < (tokens source).length)
    (hj : j < (tokens source).length) :
    ((tokenSpan source i).through (tokenSpan source j)).ranks (tokens source) = ⟨i, j + 1⟩ := by
  rw [Span.spread_ranks, ranks_tokenSpan, ranks_tokenSpan, Nat.min_eq_left (Nat.le_of_lt hi),
    Nat.min_eq_left hj]
  rfl

theorem Cursor.span_nth_ofString (source : String) (k : Nat) :
    ((Cursor.ofString source).nth k).span = tokenSpan source k := by
  rw [span_nth rfl, size_ofString]
  rfl

/-- Cursors in front of the same words hand out the same words, and come to the end together. -/
theorem Cursor.word_nth {c c' : Cursor} (h : c.waiting = none) (h' : c'.waiting = none)
    (same : c'.ahead.map Token.word = c.ahead.map Token.word) (k : Nat) :
    (c'.nth k).word = (c.nth k).word := by
  have words := congrArg (·[k]?) same
  simp only [List.getElem?_map, (settles_past h (.zero c)).getElem? k,
    (settles_past h' (.zero c')).getElem? k] at words
  split at words <;> split at words
  · rename_i finish' finish
    rw [nth, nth, (next_of_finish (waiting_skip h k) finish).1,
      (next_of_finish (waiting_skip h' k) finish').1]
    rfl
  · cases words
  · cases words
  · exact Option.some.inj words

/-- Two texts have the same program, or none for the same reason at the same place. -/
inductive CompiledAlike (source source' : String) :
    Except Diagnostic Program → Except Diagnostic Program → Prop where
  | ok (p : Program) : CompiledAlike source source' (ok p) (ok p)
  | error {d d' : Diagnostic} : d.Corresponds source source' d' →
      CompiledAlike source source' (error d) (error d')

section

variable {source source' : String}

theorem length_of_words (same : (tokens source').map Token.word = (tokens source).map Token.word) :
    (tokens source').length = (tokens source).length := by
  simpa using congrArg List.length same

/-- Texts with the same words agree when they are counted in tokens. -/
theorem agree_ranks (same : (tokens source').map Token.word = (tokens source).map Token.word)
    (k : Nat) :
    (Cursor.ofString source).Agree (Span.ranks (tokens source)) (Span.ranks (tokens source')) k
      (.ofString source') := by
  intro i _
  obtain ⟨kind, text⟩ := Token.word_eq_iff.mp (Cursor.word_nth rfl rfl same i)
  refine ⟨kind, text, ?_⟩
  rw [Cursor.span_nth_ofString, Cursor.span_nth_ofString, ranks_tokenSpan, ranks_tokenSpan,
    length_of_words same]

/-- Spans that are the same when counted in tokens go from and to the same tokens. -/
theorem Span.OfTokens.corresponds {a a' : Span} (h : a.OfTokens source) (h' : a'.OfTokens source')
    (ranks : a.ranks (tokens source) = a'.ranks (tokens source')) :
    Diagnostic.Corresponds source source' ⟨.nestingTooDeep, a⟩ ⟨.nestingTooDeep, a'⟩ := by
  obtain ⟨i, j, hi, hj, rfl⟩ := h
  obtain ⟨i', j', hi', hj', rfl⟩ := h'
  rw [ranks_stretch hi hj, ranks_stretch hi' hj'] at ranks
  obtain ⟨rfl, last⟩ := Span.mk.inj ranks
  obtain rfl : j = j' := Nat.succ.inj last
  exact .stretch i j hi hj

/-- Errors after as many tokens of both texts. -/
theorem ErrorAt.corresponds {k : Nat} {d d' : Diagnostic} {last last' : Cursor}
    (h : ErrorAt (.ofString source) k d last) (h' : ErrorAt (.ofString source') k d' last')
    (fault : d'.fault = d.fault) : d.Corresponds source source' d' := by
  have first : d = ⟨d.fault, tokenSpan source k⟩ := by
    rw [← Cursor.span_nth_ofString, ← h.span]
  have second : d' = ⟨d.fault, tokenSpan source' k⟩ := by
    rw [← Cursor.span_nth_ofString, ← h'.span, ← fault]
  rw [first, second]
  exact .place d.fault k

/-- Expressions that differ in their spans, but not when these are counted in tokens, have the
same program, or none for the same reason at the same place. -/
theorem Program.ofExpr_corresponds {e e' : Expr} (spans : e.Spans (Span.OfTokens source))
    (spans' : e'.Spans (Span.OfTokens source'))
    (alike : e.Alike (Span.ranks (tokens source)) (Span.ranks (tokens source')) e') :
    CompiledAlike source source' (ofExpr e) (ofExpr e') := by
  have laid := ofExpr_similar alike
  have failed := fun d => span_of_ofExpr (d := d) spans
  have failed' := fun d => span_of_ofExpr (d := d) spans'
  generalize ofExpr e = program at laid failed
  generalize ofExpr e' = program' at laid failed'
  cases laid with
  | ok eq => exact eq ▸ .ok _
  | @error d d' _ ranks =>
    obtain ⟨_, _⟩ := d
    obtain ⟨_, _⟩ := d'
    obtain ⟨rfl, span⟩ := failed _ rfl
    obtain ⟨rfl, span'⟩ := failed' _ rfl
    exact .error (span.corresponds span' ranks)

/-- Texts with the same words have the same program, or none for the same reason at the same
place. -/
theorem compile_of_words (same : (tokens source').map Token.word = (tokens source).map Token.word)
    {options : Options} (short : source.utf8ByteSize ≤ options.maxLength)
    (short' : source'.utf8ByteSize ≤ options.maxLength) (scope : Scope) :
    CompiledAlike source source' (compile options scope source)
      (compile options scope source') := by
  have spread := Span.spread_ranks
  obtain ⟨answer, q, parses⟩ := exists_parses scope options.maxLevels (.ofString source)
  obtain ⟨k, finishes, again⟩ := parses.replay (spread (tokens source)) (spread (tokens source'))
  obtain ⟨answer', q', parses', finishes', similar⟩ :=
    again (.ofString source') (agree_ranks same k)
  rw [compile, compile, if_neg (Nat.not_lt.mpr short), if_neg (Nat.not_lt.mpr short'),
    parses.parse_ofString, parses'.parse_ofString]
  cases similar with
  | error fault => exact .error (ErrorAt.corresponds finishes finishes' fault)
  | ok alike =>
    have spans := ofTokens_of_parse parses.parse_ofString
    have spans' := ofTokens_of_parse parses'.parse_ofString
    exact Program.ofExpr_corresponds (spans.prepare (fun _ _ => .through) options)
      (spans'.prepare (fun _ _ => .through) options)
      (options.prepare_alike (spread _) (spread _) alike)

end

/-- White space makes no difference: a text in which the words of another are written with any
white space between them, and maybe at the two ends, has the same tokens, and under all limits
that allow both texts the same program, or none for the same reason at the same place. -/
theorem compile_spaced {source source' : String} (h : Spaced (tokens source) source'.toList) :
    (tokens source').map Token.word = (tokens source).map Token.word ∧
      ∀ (options : Options) (scope : Scope), source.utf8ByteSize ≤ options.maxLength →
        source'.utf8ByteSize ≤ options.maxLength →
          CompiledAlike source source' (compile options scope source)
            (compile options scope source') := by
  have same := map_word_tokens (Cursor.spelled_ahead (c := .ofString source) rfl) h
  exact ⟨same, fun _ scope short short' => compile_of_words same short short' scope⟩

/-- An exponent without digits has none either if white space is what comes after it. -/
theorem compile_spaced_exponent :
    Spaced (tokens "x+1e+*y") "x\t+  1e+ *\u3000y\n".toList ∧
      (tokens "x\t+  1e+ *\u3000y\n").map Token.word = (tokens "x+1e+*y").map Token.word ∧
      CompiledAlike "x+1e+*y" "x\t+  1e+ *\u3000y\n"
        (compile {} (Scope.empty.bind "x" (.cell "a")) "x+1e+*y")
        (compile {} (Scope.empty.bind "x" (.cell "a")) "x\t+  1e+ *\u3000y\n") := by
  have found : tokens "x+1e+*y" =
      [⟨.name, ⟨0, 1⟩, "x"⟩, ⟨.operator .add, ⟨1, 2⟩, "+"⟩,
        ⟨.invalid .malformedNumber, ⟨2, 5⟩, "1e+"⟩, ⟨.operator .mul, ⟨5, 6⟩, "*"⟩,
        ⟨.name, ⟨6, 7⟩, "y"⟩] := by decide +kernel
  have none : ∀ c ∈ ([] : List Char), Text.isBlank c = true := List.forall_mem_nil _
  have spaced : Spaced (tokens "x+1e+*y") "x\t+  1e+ *\u3000y\n".toList := by
    rw [found]
    refine @Spaced.cons [] _ '\t' _ _ none rfl ?_
    refine @Spaced.cons [] _ ' ' _ _ none rfl ?_
    refine @Spaced.cons [' '] _ ' ' _ _ (List.forall_mem_singleton.mpr rfl) rfl ?_
    refine @Spaced.cons [] _ '\u3000' _ _ none rfl ?_
    exact @Spaced.cons [] _ '\n' _ _ none rfl (.nil none)
  obtain ⟨same, alike⟩ := compile_spaced spaced
  exact ⟨spaced, same, alike {} _ (by decide) (by decide)⟩

end Formula
