import Formula.Proofs.Lossless
import Formula.Proofs.Nested
import Formula.Proofs.Spacing

/-!
# Errors shown on their text

Tokens do not cut characters, and neither does the end of a text, so what goes from one token to
another can be taken out of the text (`isSome_slice?_of_ofTokens`). All errors are such spans but
one: a text that is too long is cut where the allowed part of it stops, which may be inside a
character (`compile_error_shown`).
-/

namespace Formula

open Except (ok error)
open Text (Boundary slice? isSome_slice?_iff)

variable {source : String}

theorem boundary_size (source : String) : Boundary source.toList source.utf8ByteSize :=
  ⟨source.toList, [], (List.append_nil _).symm, Text.width_toList source⟩

theorem isSome_slice?_tokenSpan (source : String) (k : Nat) :
    (slice? source.toList (tokenSpan source k)).isSome = true := by
  rcases Nat.lt_or_ge k (tokens source).length with more | last
  · have held := slice?_tokens source _ (List.getElem_mem more)
    rw [tokenSpan, List.drop_eq_getElem_cons more, spanAt, held]
    rfl
  · rw [tokenSpan, List.drop_eq_nil_of_le last, spanAt]
    exact isSome_slice?_iff.mpr ⟨Nat.le_refl _, boundary_size source, boundary_size source⟩

/-- What goes from one token to another can be taken out of the text. -/
theorem isSome_slice?_of_ofTokens {a : Span} (h : a.OfTokens source) (le : a.start ≤ a.stop) :
    (slice? source.toList a).isSome = true := by
  obtain ⟨i, j, -, -, rfl⟩ := h
  obtain ⟨-, start, -⟩ := isSome_slice?_iff.mp (isSome_slice?_tokenSpan source i)
  obtain ⟨-, -, stop⟩ := isSome_slice?_iff.mp (isSome_slice?_tokenSpan source j)
  exact isSome_slice?_iff.mpr ⟨le, start, stop⟩

/-- An error of a text that cannot be read is at a token, or at the end. -/
theorem span_of_parse_error {scope : Scope} {maxLevels : Nat} {d : Diagnostic}
    (h : parse scope maxLevels source = error d) : ∃ k, d.span = tokenSpan source k := by
  obtain ⟨answer, q, parses⟩ := exists_parses scope maxLevels (.ofString source)
  obtain rfl : answer = error d := parses.parse_ofString.symm.trans h
  obtain ⟨k, finishes⟩ := parses.finishes
  exact ⟨k, (ErrorAt.span finishes).trans (Cursor.span_nth_ofString source k)⟩

/-- What does not fit on the stack goes from one token to another. -/
theorem span_of_layout_error {options : Options} {scope : Scope} {e : Expr} {d : Diagnostic}
    (parsed : parse scope options.maxLevels source = ok e)
    (h : Program.ofExpr (options.prepare e) = error d) :
    d.span.OfTokens source ∧ d.span.start < d.span.stop := by
  have spans := (ofTokens_of_parse parsed).prepare (fun _ _ => .through) options
  have nested := (Expr.Fits.prepare (nested_of_parse parsed) options).nested
  exact ⟨(Program.span_of_ofExpr spans h).2, (Program.span_of_ofExpr nested.spans h).2⟩

/-- An error is about a part of the text and does not end before it starts. It can be taken out
of the text, unless the text is too long and the allowed part of it stops inside a character. -/
theorem compile_error_shown {options : Options} {scope : Scope} {d : Diagnostic}
    (h : compile options scope source = error d) :
    d.span.start ≤ d.span.stop ∧ d.span.stop ≤ source.utf8ByteSize ∧
      ((slice? source.toList d.span).isSome = true ↔
        (options.maxLength < source.utf8ByteSize → Boundary source.toList options.maxLength)) := by
  unfold compile at h
  split at h
  · rename_i long
    cases h
    refine ⟨Nat.le_refl _, Nat.le_of_lt long, ?_⟩
    rw [isSome_slice?_iff]
    exact ⟨fun shown _ => shown.2.1, fun cut => ⟨Nat.le_refl _, cut long, cut long⟩⟩
  rename_i short
  have shown : (slice? source.toList d.span).isSome = true := by
    split at h
    · rename_i d' failed
      cases h
      obtain ⟨k, span⟩ := span_of_parse_error failed
      rw [span]
      exact isSome_slice?_tokenSpan source k
    · rename_i e parsed
      obtain ⟨stretch, size⟩ := span_of_layout_error parsed h
      exact isSome_slice?_of_ofTokens stretch (Nat.le_of_lt size)
  obtain ⟨le, -, stop⟩ := isSome_slice?_iff.mp shown
  have inside := stop.le_width
  rw [Text.width_toList] at inside
  exact ⟨le, inside, fun _ long => absurd long short, fun _ => shown⟩

/-- A name after a character of two bytes is shown. -/
theorem compile_error_shown_name :
    compile {} .empty "1+\u00a0x" = error ⟨.unboundName, ⟨4, 5⟩⟩ ∧
      (slice? "1+\u00a0x".toList ⟨4, 5⟩).isSome = true := by
  have failed : (Parser.ofString "1+\u00a0x" 64).error? .empty =
      some ⟨.unboundName, ⟨4, 5⟩⟩ := by decide +kernel
  obtain ⟨q, failed⟩ := Parser.error?_eq_some_iff.mp failed
  have read : parse .empty 64 "1+\u00a0x" = error ⟨.unboundName, ⟨4, 5⟩⟩ :=
    congrArg Prod.fst failed
  have failed : compile {} .empty "1+\u00a0x" = error ⟨.unboundName, ⟨4, 5⟩⟩ := by
    rw [compile, if_neg (by decide), read]
  obtain ⟨-, -, shown⟩ := compile_error_shown failed
  exact ⟨failed, shown.mpr fun long => absurd long (by decide)⟩

/-- A limit of three bytes stops inside the no-break space of a text, and so does the error. -/
theorem compile_error_inside_character :
    compile ⟨3, 64, true⟩ .empty "1+\u00a02" = error ⟨.textTooLong, ⟨3, 3⟩⟩ ∧
      slice? "1+\u00a02".toList ⟨3, 3⟩ = none := by
  refine ⟨?_, by decide⟩
  rw [compile, if_pos (by decide)]
  rfl

end Formula
