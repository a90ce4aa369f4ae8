import Formula.Program.Listing
import Formula.Proofs.Checked.Calls
import Formula.Proofs.ReadBack
import Formula.Proofs.Spelling

/-!
# What a listing tells

Two texts that are compiled in one scope have the same program if their programs are listed alike
(`eq_of_listing`). The number of a line and its end are told apart from what is between them, since
no instruction has more than one line. The first characters of an instruction tell what it does,
and what follows them, with what: a number is determined by its plain text, and a name by the
characters up to the next blank, since it is a name of the text and has none itself. The scope has
one function for a name, so it does not matter that all calls are listed in the same way.
-/

namespace Formula

open Except (ok error)

/-- A text of the characters of which names are made. -/
def IsName (text : String) : Prop :=
  ∀ c ∈ text.toList, Token.isNamePart c = true

theorem Token.Spelled.isName {token : Token} (h : token.Spelled) (name : token.kind = .name) :
    IsName token.text := by
  obtain ⟨c, rest, -, kind, text⟩ := h
  rw [kind] at name
  rw [IsName, text, String.toList_ofList]
  simp only [take] at name ⊢
  split at name
  · simp only [Kind.ofNumeral] at name
    split at name
    · cases name
    · split at name <;> cases name
  · rename_i numeral
    split at name
    · rename_i alpha
      simp only [numeral, alpha, if_true]
      refine List.forall_mem_cons.mpr ⟨?_, List.all_eq_true.mp List.all_takeWhile⟩
      simp [isNamePart, Char.isAlphanum, alpha]
    · simp only [take.single] at name
      split at name <;> try cases name
      split at name <;> cases name

/-- What an instruction can be if a text is compiled in a scope: names are names of the text, and
the scope says what they stand for. -/
inductive Instr.Known (scope : Scope) : Instr → Prop where
  | const (value : Float) : Known scope (.const value)
  | load {name : String} {cell : Cell} : IsName name →
      scope.resolve name = some (.cell cell) → Known scope (.load name cell)
  | neg : Known scope .neg
  | op (op : Operator) : Known scope (.op op)
  | call {name : String} {primitive : Primitive} (count : Nat) : IsName name →
      scope.resolve name = some (.function primitive) →
      Known scope (Func.instr ⟨name, primitive⟩ count)

theorem Gives.known {scope : Scope} {operand : Bool} {ts : List Token} {code : List Instr}
    (h : Gives scope operand ts code)
    (names : ∀ token ∈ ts, token.kind = .name → IsName token.text) :
    ∀ instr ∈ code, instr.Known scope := by
  induction h with
  | nil => exact List.forall_mem_nil _
  | number _ _ ih | constant _ _ _ ih =>
    exact List.forall_mem_cons.mpr ⟨.const _, ih (List.forall_mem_cons.mp names).2⟩
  | var kind found _ ih =>
    obtain ⟨here, later⟩ := List.forall_mem_cons.mp names
    exact List.forall_mem_cons.mpr ⟨.load (here kind) found, ih later⟩
  | function kind found _ ih =>
    obtain ⟨here, later⟩ := List.forall_mem_cons.mp names
    exact List.forall_mem_cons.mpr ⟨.call _ (here kind) found, ih later⟩
  | operator _ _ ih => exact List.forall_mem_cons.mpr ⟨.op _, ih (List.forall_mem_cons.mp names).2⟩
  | minus _ _ ih => exact List.forall_mem_cons.mpr ⟨.neg, ih (List.forall_mem_cons.mp names).2⟩
  | plus _ _ ih | opening _ _ ih | closing _ _ ih | comma _ _ ih =>
    exact ih (List.forall_mem_cons.mp names).2

theorem known_of_parse {scope : Scope} {maxLevels : Nat} {source : String} {e : Expr}
    (h : parse scope maxLevels source = ok e) : ∀ instr ∈ e.code, instr.Known scope := by
  obtain ⟨given, gives, same⟩ := gives_of_parse h
  have spelled : ∀ token ∈ tokens source, token.Spelled := Cursor.spelled_ahead rfl
  intro instr hi
  exact gives.known (fun token ht kind => (spelled token ht).isName kind) instr
    (same.perm.mem_iff.mpr hi)

/-! ## Lines -/

/-- Up to the first stop, texts with stops are the same only if what comes before it is the same. -/
theorem append_stop_inj {stop : Char} {a b s t : List Char} (ha : stop ∉ a) (hb : stop ∉ b)
    (same : a ++ stop :: s = b ++ stop :: t) : a = b ∧ s = t := by
  have front {a s : List Char} (h : stop ∉ a) : (a ++ stop :: s).takeWhile (· != stop) = a :=
    Text.takeWhile_front (fun c hc => bne_iff_ne.mpr fun e => h (e ▸ hc)) (by simp)
  have here : a = b := by rw [← front (s := s) ha, same, front hb]
  subst here
  exact ⟨rfl, (List.cons.inj (List.append_cancel_left same)).2⟩

theorem Func.text_instr (func : Func) (count : Nat) :
    (func.instr count).text =
      "CALL          " ++ func.name ++ (" " ++ toString (func.instr count).pops) := by
  obtain ⟨name, primitive⟩ := func
  have one : " " ++ toString 1 = " 1" := by decide +kernel
  have two : " " ++ toString 2 = " 2" := by decide +kernel
  cases primitive with
  | unary => exact congrArg ("CALL          " ++ name ++ ·) one.symm
  | binary => exact congrArg ("CALL          " ++ name ++ ·) two.symm
  | variadic => exact String.append_assoc

/-- A call is known by its function and by how many numbers it takes. -/
theorem Func.instr_eq_of_pops {func : Func} {count count' : Nat}
    (same : (func.instr count).pops = (func.instr count').pops) :
    func.instr count = func.instr count' := by
  obtain ⟨name, primitive⟩ := func
  cases primitive with
  | unary | binary => rfl
  | variadic arity f => exact congrArg (Instr.callN name · f) same

theorem Operator.mnemonic_injective : Function.Injective mnemonic := by
  intro o o' same
  cases o <;> cases o' <;> first | rfl | exact absurd same (by decide)

/-- The other ways in which a line begins. -/
theorem Operator.mnemonic_ne (o : Operator) {text : String}
    (h : text ∈ ["LOAD_C", "LOAD_V", "NEG", "CALL  "]) : o.mnemonic ≠ text := by
  rintro rfl
  cases o <;> exact absurd h (by decide)

namespace Instr

/-- How an instruction begins in a listing. -/
def opening : Instr → String
  | const _ => "LOAD_C"
  | load _ _ => "LOAD_V"
  | neg => "NEG"
  | op o => o.mnemonic
  | call1 _ _ | call2 _ _ | callN _ _ _ => "CALL  "

theorem text_const (value : Float) :
    (const value).text = "LOAD_CONST    " ++ Number.Layout.plain.write value := rfl

theorem text_load (name : String) (cell : Cell) :
    (load name cell).text = "LOAD_VAR      " ++ name := rfl

theorem take_append {word first : String} (rest : String) (whole : 6 ≤ word.toList.length)
    (same : word.toList.take 6 = first.toList) : (word ++ rest).toList.take 6 = first.toList := by
  rw [String.toList_append, List.take_append_of_le_length whole, same]

theorem opening_const (value : Float) : (const value).opening = "LOAD_C" := rfl

theorem opening_load (name : String) (cell : Cell) : (load name cell).opening = "LOAD_V" := rfl

theorem opening_neg : neg.opening = "NEG" := rfl

theorem opening_op (o : Operator) : (op o).opening = o.mnemonic := rfl

theorem opening_instr (func : Func) (count : Nat) : (func.instr count).opening = "CALL  " := by
  obtain ⟨name, primitive⟩ := func
  cases primitive <;> rfl

/-- The first characters of an instruction tell what it does. -/
theorem Known.take_text {scope : Scope} {instr : Instr} (h : instr.Known scope) :
    instr.text.toList.take 6 = instr.opening.toList := by
  cases h with
  | const value => exact take_append _ (by decide) (by rw [opening_const]; decide)
  | load name => exact take_append _ (by decide) (by rw [opening_load]; decide)
  | neg => decide
  | op o => cases o <;> decide
  | call count name =>
    rw [Func.text_instr, String.append_assoc, opening_instr]
    exact take_append _ (by decide) (by decide)

theorem eq_of_text_instr {scope : Scope} {name name' : String} {primitive primitive' : Primitive}
    {count count' : Nat} (hn : IsName name) (hn' : IsName name')
    (found : scope.resolve name = some (.function primitive))
    (found' : scope.resolve name' = some (.function primitive'))
    (same : (Func.instr ⟨name, primitive⟩ count).text =
      (Func.instr ⟨name', primitive'⟩ count').text) :
    Func.instr ⟨name, primitive⟩ count = Func.instr ⟨name', primitive'⟩ count' := by
  rw [Func.text_instr, Func.text_instr, String.append_assoc, String.append_assoc] at same
  have same := congrArg String.toList ((String.append_right_inj _).mp same)
  simp only [String.toList_append] at same
  have blank {name : String} (h : IsName name) : ' ' ∉ name.toList := fun inside =>
    absurd (h _ inside) (by decide)
  obtain ⟨names, counts⟩ := append_stop_inj (blank hn) (blank hn') same
  obtain rfl := String.toList_inj.mp names
  cases found.symm.trans found'
  refine Func.instr_eq_of_pops ?_
  have counts := congrArg (Nat.ofDigitChars 10 · 0) counts
  simpa [Nat.toString_eq_ofList_toDigits] using counts

theorem Known.eq_of_text {scope : Scope} {a b : Instr} (ha : a.Known scope) (hb : b.Known scope)
    (same : a.text = b.text) : a = b := by
  have begin : a.opening = b.opening := by
    rw [← String.toList_inj, ← ha.take_text, ← hb.take_text, same]
  cases ha <;> cases hb
  case const.const x y =>
    have plain := (String.append_right_inj _).mp same
    exact congrArg Instr.const (Number.Layout.write_plain_injective plain)
  case load.load name cell hn found name' cell' hn' found' =>
    obtain rfl := (String.append_right_inj _).mp same
    cases found.symm.trans found'
    rfl
  case neg.neg => rfl
  case op.op o o' => exact congrArg Instr.op (Operator.mnemonic_injective same)
  case call.call name primitive count hn found name' primitive' count' hn' found' =>
    exact eq_of_text_instr hn hn' found found' same
  all_goals
    simp only [opening_const, opening_load, opening_neg, opening_op, opening_instr] at begin
    first
    | exact absurd begin (by decide)
    | exact absurd begin (Operator.mnemonic_ne _ (by decide))
    | exact absurd begin.symm (Operator.mnemonic_ne _ (by decide))

/-- No instruction has more than one line. -/
theorem Known.newline_notMem {scope : Scope} {a : Instr} (h : a.Known scope) :
    '\n' ∉ a.text.toList := by
  have line {name : String} (h : IsName name) : '\n' ∉ name.toList := fun inside =>
    absurd (h _ inside) (by decide)
  have number (n : Nat) : '\n' ∉ (toString n).toList := by
    rw [Nat.toString_eq_ofList_toDigits, String.toList_ofList]
    intro inside
    exact absurd (Nat.isDigit_of_mem_toDigits (by decide) (by decide) inside) (by decide)
  cases h with
  | const value => simp [text_const, Number.Layout.newline_notMem_plain]
  | load name => simp [text_load, line name]
  | neg => decide
  | op o => cases o <;> decide
  | call count name => simp [-Nat.toString_eq_repr, Func.text_instr, line name, number]

end Instr

namespace Program

theorem newline_notMem_lineNumber (index : Nat) : '\n' ∉ (lineNumber index).toList := by
  rw [lineNumber, String.toList_ofList, List.mem_append]
  rintro (zero | digit)
  · cases List.eq_of_mem_replicate zero
  · exact absurd (Nat.isDigit_of_mem_toDigits (by decide) (by decide) digit) (by decide)

theorem toList_line (index : Nat) (instr : Instr) (rest : List Char) :
    (line index instr).toList ++ rest =
      ((lineNumber index).toList ++ "   ".toList ++ instr.text.toList) ++ '\n' :: rest := by
  simp [line]

theorem newline_notMem_front {scope : Scope} {instr : Instr} (h : instr.Known scope) (index : Nat) :
    '\n' ∉ (lineNumber index).toList ++ "   ".toList ++ instr.text.toList := by
  simp [newline_notMem_lineNumber, h.newline_notMem]

/-- Instructions that are listed alike, from some line on, are the same. -/
theorem eq_of_lines {scope : Scope} {a b : List Instr} (ha : ∀ instr ∈ a, instr.Known scope)
    (hb : ∀ instr ∈ b, instr.Known scope) (first : Nat)
    (same : (a.mapIdx fun index => line (index + first)).flatMap String.toList =
      (b.mapIdx fun index => line (index + first)).flatMap String.toList) : a = b := by
  induction a generalizing b first with
  | nil =>
    cases b with
    | nil => rfl
    | cons => simp [List.mapIdx_cons, toList_line] at same
  | cons instr rest ih =>
    cases b with
    | nil => simp [List.mapIdx_cons, toList_line] at same
    | cons instr' rest' =>
      obtain ⟨here, ha⟩ := List.forall_mem_cons.mp ha
      obtain ⟨here', hb⟩ := List.forall_mem_cons.mp hb
      simp only [List.mapIdx_cons, List.flatMap_cons, toList_line, Nat.zero_add] at same
      obtain ⟨texts, later⟩ := append_stop_inj (newline_notMem_front here first)
        (newline_notMem_front here' first) same
      simp only [Nat.add_right_comm _ 1 first, Nat.add_assoc _ first 1] at later
      rw [here.eq_of_text here' (String.toList_inj.mp (List.append_cancel_left texts)),
        ih ha hb (first + 1) later]

/-- How much of the stack instructions need does not depend on where they stand. -/
theorem depth_eq {code code' : List Placed} {height most depth depth' : Nat}
    (h : peak height most code = ok depth) (h' : peak height most code' = ok depth')
    (same : code.map Placed.instr = code'.map Placed.instr) : depth = depth' := by
  induction code generalizing code' height most with
  | nil =>
    obtain rfl := List.map_eq_nil_iff.mp same.symm
    exact Except.ok.inj (h.symm.trans h')
  | cons placed rest ih =>
    obtain ⟨placed', rest', rfl, here, later⟩ := List.map_eq_cons_iff.mp same.symm
    have h' := (peak_cons_eq_ok.mp h').2
    rw [here] at h'
    exact ih (peak_cons_eq_ok.mp h).2 h' later.symm

end Program

/-- The instructions of a program are known. -/
theorem known_of_compile {options : Options} {scope : Scope} {source : String} {p : Program}
    (h : compile options scope source = ok p) : ∀ instr ∈ p.code, instr.Known scope := by
  obtain ⟨e, parsed, -, laid⟩ := compile_eq_ok h
  intro instr hi
  rw [(Program.ofExpr_eq_ok laid).1] at hi
  by_cases number : ∃ value, instr = .const value
  · obtain ⟨value, rfl⟩ := number
    exact .const value
  · exact known_of_parse parsed instr
      (options.mem_code_of_prepare (fun value e => number ⟨value, e⟩) hi)

/-- Programs of one scope that are listed alike are the same, whatever the texts and the options. -/
theorem eq_of_listing {options options' : Options} {scope : Scope} {source source' : String}
    {p q : Program} (hp : compile options scope source = ok p)
    (hq : compile options' scope source' = ok q) (same : p.listing = q.listing) : p = q := by
  have lines := String.toList_inj.mpr same
  rw [Program.listing, Program.listing, String.toList_join, String.toList_join] at lines
  have code := Program.eq_of_lines (known_of_compile hp) (known_of_compile hq) 0 lines
  obtain ⟨e, -, -, laid⟩ := compile_eq_ok hp
  obtain ⟨e', -, -, laid'⟩ := compile_eq_ok hq
  obtain ⟨own, peak⟩ := Program.ofExpr_eq_ok laid
  obtain ⟨own', peak'⟩ := Program.ofExpr_eq_ok laid'
  have depth := Program.depth_eq peak peak' (own.symm.trans (code.trans own'))
  obtain ⟨code, depth⟩ := p
  obtain ⟨code', depth'⟩ := q
  simp_all only

/-- Constants that are folded are listed as if they had been written out. -/
theorem eq_of_listing_folded :
    ∃ p q, compile {} (Scope.builtin.withCell "x" "a") "-max(x, 1.5, 3) ^ 2" = ok p ∧
      compile ⟨100, 10, true⟩ (Scope.builtin.withCell "x" "a") "-max(x, 3 / 2, 1 + 2) ^ 2" = ok q ∧
      p.listing = q.listing ∧ p = q := by
  have left : ((compile {} (Scope.builtin.withCell "x" "a") "-max(x, 1.5, 3) ^ 2").map
      Program.listing).toOption = some "0000   LOAD_VAR      x
0001   LOAD_CONST    1.5
0002   LOAD_CONST    3
0003   CALL          max 3
0004   LOAD_CONST    2
0005   POW
0006   NEG
" := by decide +kernel
  have right : ((compile ⟨100, 10, true⟩ (Scope.builtin.withCell "x" "a")
      "-max(x, 3 / 2, 1 + 2) ^ 2").map Program.listing).toOption =
        ((compile {} (Scope.builtin.withCell "x" "a") "-max(x, 1.5, 3) ^ 2").map
          Program.listing).toOption := by decide +kernel
  obtain ⟨p, compiled, listed⟩ := Program.exists_of_map left
  obtain ⟨q, compiled', listed'⟩ := Program.exists_of_map (right.trans left)
  have same := listed.trans listed'.symm
  exact ⟨p, q, compiled, compiled', same, eq_of_listing compiled compiled' same⟩

end Formula
