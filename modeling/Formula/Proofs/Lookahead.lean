import Formula.Proofs.Lossless

/-!
# Looking ahead

A cursor is asked for its next token in three ways, in any order and any number of times
(`Request`). Whatever the order, the tokens of the text are handed out one after the other, and
the token that was looked at is the one that is handed out next (`looking_ahead`).

The stream of a cursor stops for good, and its flag is all that tells the cursor from one that was
only looked at and asked for tokens (`Cursor.resume`). So the cursor of a text is told by how many
tokens were taken from it, whichever way they were taken (`Cursor.Serves`).
-/

namespace Formula

/-- How a cursor is asked for its next token. -/
inductive Request where
  /-- The token is looked at. -/
  | peek
  /-- The token is handed out. -/
  | next
  /-- The token is handed out if the stream has not stopped. -/
  | step
deriving DecidableEq

/-- Whether a token is none in any place. -/
def Token.isInvalid (t : Token) : Bool :=
  match t.kind with
  | .invalid _ => true
  | _ => false

namespace Cursor

/-! ## Requests -/

/-- What a cursor answers, and the cursor afterwards. -/
def reply (c : Cursor) : Request → Option Token × Cursor
  | .peek => (some c.peek.1, c.peek.2)
  | .next => (some c.next.1, c.next.2)
  | .step => c.step

/-- The cursor after some requests. -/
def after (c : Cursor) : List Request → Cursor
  | [] => c
  | request :: rest => (c.reply request).2.after rest

/-- What is told of each of some requests and of the cursor that it is made to. -/
def trace {α : Type} (tell : Cursor → Request → α) (c : Cursor) : List Request → List α
  | [] => []
  | request :: rest => tell c request :: (c.reply request).2.trace tell rest

/-- The token that is handed out to a request. The end of the text is none. -/
def hands (c : Cursor) : Request → Option Token
  | .peek => none
  | .next => (c.reply .next).1.filter fun token => !token.isFinish
  | .step => (c.reply .step).1.filter fun token => !token.isFinish

/-- The token that has to be scanned for a request: none if a token is waiting, and none for a
stream that has stopped. -/
def scans (c : Cursor) (request : Request) : Option Token :=
  if c.waiting.isSome || (request == .step && c.stopped) then none else some c.fetch.1

/-- Whether the stream gives no token for a request, or one that is invalid. -/
def halts (c : Cursor) : Request → Bool
  | .step => c.step.1.all Token.isInvalid
  | _ => false

/-- The tokens that are handed out to some requests. -/
def handed (c : Cursor) (requests : List Request) : List Token :=
  (c.trace hands requests).flatMap Option.toList

/-- The tokens that are scanned for some requests, the end of the text each time. -/
def scannedFor (c : Cursor) (requests : List Request) : List Token :=
  (c.trace scans requests).flatMap Option.toList

/-- Whether the stream meets the end of the text or an invalid token in some requests. -/
def halted (c : Cursor) (requests : List Request) : Bool :=
  (c.trace halts requests).any id

section

variable (c : Cursor) (request : Request) (rest : List Request)

theorem handed_cons :
    c.handed (request :: rest) = (c.hands request).toList ++ (c.reply request).2.handed rest := rfl

theorem scannedFor_cons :
    c.scannedFor (request :: rest) =
      (c.scans request).toList ++ (c.reply request).2.scannedFor rest := rfl

theorem halted_cons :
    c.halted (request :: rest) = (c.halts request || (c.reply request).2.halted rest) := rfl

end

/-! ## The flag of the stream -/

/-- The same cursor with a stream that has not stopped. -/
def resume (c : Cursor) : Cursor :=
  { c with stopped := false }

section

variable (c : Cursor)

theorem next_resume : c.resume.next = (c.next.1, c.next.2.resume) := by
  cases waiting : c.waiting <;> simp [resume, next, fetch, waiting]

theorem peek_resume : c.resume.peek = (c.peek.1, c.peek.2.resume) := by
  cases waiting : c.waiting <;> simp [resume, peek, fetch, waiting]

theorem stopped_next : c.next.2.stopped = c.stopped := by
  cases waiting : c.waiting <;> simp [next, fetch, waiting]

theorem stopped_peek : c.peek.2.stopped = c.stopped := by
  cases waiting : c.waiting <;> simp [peek, fetch, waiting]

end

variable {c : Cursor}

theorem step_of_stopped (h : c.stopped = true) : c.step = (none, c) := by
  rw [step, if_pos h]

/-- A stream that has not stopped gives the token that is handed out next, unless that is the end
of the text. -/
theorem fst_step (h : c.stopped = false) :
    c.step.1 = (some c.next.1).filter fun token => !token.isFinish := by
  simp only [step, h, Bool.false_eq_true, if_false]
  cases kind : c.next.1.kind <;>
    simp [Option.filter, Token.isFinish, Token.Kind.isFinish, kind]

/-- A stream takes a token as if it was handed out. -/
theorem resume_step (h : c.stopped = false) : c.step.2.resume = c.next.2.resume := by
  simp only [step, h, Bool.false_eq_true, if_false]
  cases kind : c.next.1.kind <;> rfl

/-- A stream stops where it gives no token or one that is invalid. -/
theorem stopped_reply (c : Cursor) (request : Request) :
    (c.reply request).2.stopped = (c.stopped || c.halts request) := by
  cases request with
  | peek => rw [reply, stopped_peek]; exact (Bool.or_false _).symm
  | next => rw [reply, stopped_next]; exact (Bool.or_false _).symm
  | step =>
    cases stopped : c.stopped with
    | true => rw [reply, step_of_stopped stopped, stopped, Bool.true_or]
    | false =>
      simp only [reply, halts, step, stopped, Bool.false_eq_true, if_false, Bool.false_or]
      cases kind : c.next.1.kind <;> simp [kind, stopped, stopped_next, Token.isInvalid]

/-- A stream has stopped if it has met the end of the text or an invalid token. -/
theorem stopped_after (c : Cursor) (requests : List Request) :
    (c.after requests).stopped = (c.stopped || c.halted requests) := by
  induction requests generalizing c with
  | nil => exact (Bool.or_false _).symm
  | cons request rest ih => rw [after, ih, stopped_reply, halted_cons, Bool.or_assoc]

/-- A stream that has stopped takes no token any more. -/
theorem step_after (h : c.stopped = true) (requests : List Request) :
    (c.after requests).step = (none, c.after requests) := by
  apply step_of_stopped
  rw [stopped_after, h, Bool.true_or]

/-! ## How many tokens were taken -/

/-- A cursor of a text from which a number of tokens were taken, the end of the text counted each
time: the tokens that were handed out are the first ones of the text, and those that were scanned
are the first ones and, if it is waiting, the next one. -/
structure Serves (source : String) (n : Nat) (handed scanned : List Token) (c : Cursor) :
    Prop where
  past : (ofString source).Past n c.resume
  handed : handed = (tokens source).take n
  scanned : scanned = (List.range (n + c.waiting.toList.length)).map (ofString source).nth

namespace Serves

variable {source : String} {n : Nat} {handed scanned : List Token}

theorem first_eq (h : Serves source n handed scanned c) : c.next.1 = (ofString source).nth n := by
  have first := h.past.first_eq
  rwa [next_resume] at first

/-- Looking at a token takes none. -/
theorem peek (h : Serves source n handed scanned c) :
    Serves source n handed (scanned ++ (c.scans .peek).toList) c.peek.2 := by
  have stands := h.past.trans (.peek _)
  rw [peek_resume] at stands
  refine ⟨stands, h.handed, ?_⟩
  have first := h.first_eq
  have before := h.scanned
  cases waiting : c.waiting with
  | some token => simp [scans, Cursor.peek, waiting, before]
  | none =>
    rw [next_eq_fetch waiting] at first
    simp [scans, Cursor.peek, waiting, before, first, List.range_succ]

/-- Handing out a token takes it. -/
theorem next (h : Serves source n handed scanned c) :
    Serves source (n + 1) (handed ++ (c.hands .next).toList) (scanned ++ (c.scans .next).toList)
      c.next.2 := by
  have stands := h.past.trans (.next _)
  rw [next_resume] at stands
  have first := h.first_eq
  have before := h.scanned
  refine ⟨stands, ?_, ?_⟩
  · have listed : (tokens source)[n]? = _ := (settles_past rfl (.zero (ofString source))).getElem? n
    rw [h.handed, List.take_add_one, listed, hands, reply, first]
    cases finish : ((ofString source).nth n).isFinish <;> simp [finish]
  · cases waiting : c.waiting with
    | some token => simp [scans, Cursor.next, waiting, before]
    | none =>
      rw [next_eq_fetch waiting] at first
      simp [scans, Cursor.next, waiting, before, first, List.range_succ, waiting_fetch]

/-- What one request does. -/
theorem reply (h : Serves source n handed scanned c) (request : Request) :
    ∃ n', Serves source n' (handed ++ (c.hands request).toList)
      (scanned ++ (c.scans request).toList) (c.reply request).2 := by
  cases request with
  | peek =>
    refine ⟨n, ?_⟩
    rw [hands, Option.toList_none, List.append_nil]
    exact h.peek
  | next => exact ⟨n + 1, h.next⟩
  | step =>
    cases stopped : c.stopped with
    | true =>
      refine ⟨n, ?_⟩
      have nothing := step_of_stopped stopped
      simpa [hands, scans, Cursor.reply, nothing, stopped] using h
    | false =>
      have taken := h.next
      have same := resume_step stopped
      have waiting : c.step.2.waiting = c.next.2.waiting := congrArg (·.waiting) same
      have handed : c.hands .step = c.hands .next := by
        simp only [hands, Cursor.reply, fst_step stopped, Option.filter_filter, Bool.and_self]
      have scanned : c.scans .step = c.scans .next := by simp [scans, stopped]
      refine ⟨n + 1, ?_, ?_, ?_⟩
      · rw [Cursor.reply, same]
        exact taken.past
      · rw [handed]
        exact taken.handed
      · rw [scanned, Cursor.reply, waiting]
        exact taken.scanned

end Serves

/-- What any requests do. -/
theorem Serves.after {source : String} {n : Nat} {handed scanned : List Token}
    (h : Serves source n handed scanned c) (requests : List Request) :
    ∃ n', Serves source n' (handed ++ c.handed requests) (scanned ++ c.scannedFor requests)
      (c.after requests) := by
  induction requests generalizing c n handed scanned with
  | nil => exact ⟨n, by simpa [Cursor.handed, scannedFor, trace, Cursor.after] using h⟩
  | cons request rest ih =>
    obtain ⟨n', served⟩ := h.reply request
    rw [handed_cons, scannedFor_cons, ← List.append_assoc, ← List.append_assoc]
    exact ih served

theorem serves_ofString (source : String) : Serves source 0 [] [] (ofString source) :=
  ⟨.zero _, rfl, rfl⟩

/-! ## What was scanned -/

theorem waiting_peek (c : Cursor) : c.peek.2.waiting = some c.peek.1 := by
  cases waiting : c.waiting <;> simp [peek, waiting]

theorem scanned_peek (h : c.waiting = none) : c.peek.2.scanned = c.next.2.scanned := by
  simp [peek, next, h]

/-- The end of a text is handed out where its tokens are used up. -/
theorem isFinish_nth_iff {source : String} {n : Nat} :
    ((ofString source).nth n).isFinish = true ↔ (tokens source).length ≤ n := by
  have found : (tokens source)[n]? = _ := (settles_past rfl (.zero (ofString source))).getElem? n
  rw [← List.getElem?_eq_none_iff, found]
  split <;> simp_all

namespace Serves

variable {source : String} {n : Nat} {handed scanned : List Token}

/-- A token that is waiting is the next one. -/
theorem waiting (h : Serves source n handed scanned c) :
    c.resume = (ofString source).skip n ∧ c.waiting = none ∨
      c.resume = ((ofString source).skip n).peek.2 ∧
        c.waiting = some ((ofString source).nth n) := by
  rcases h.past with stands | stands
  · exact .inl ⟨stands, (congrArg (·.waiting) stands).trans (waiting_skip rfl n)⟩
  · refine .inr ⟨stands, (congrArg (·.waiting) stands).trans ?_⟩
    rw [waiting_peek, fst_peek]
    rfl

/-- A cursor stands at the end of the token that was scanned last. -/
theorem position_eq (h : Serves source n handed scanned c) :
    c.position = scanned.getLast?.elim 0 fun token => token.span.stop := by
  have listed := h.scanned
  rcases h.waiting with ⟨stands, waiting⟩ | ⟨stands, waiting⟩
  · have position : c.position = ((ofString source).skip n).position :=
      congrArg (·.position) stands
    rw [waiting] at listed
    rw [position, listed]
    cases n with
    | zero => rfl
    | succ n =>
      rw [← next_skip, position_next (waiting_skip rfl n)]
      simp [List.range_succ, nth]
  · have position : c.position = ((ofString source).skip n).peek.2.position :=
      congrArg (·.position) stands
    rw [waiting] at listed
    rw [position, position_peek (waiting_skip rfl n), listed]
    simp [List.range_succ, nth]

/-- Once the end was scanned, a cursor stands there. -/
theorem position_of_finish (h : Serves source n handed scanned c) {token : Token}
    (ht : token ∈ scanned) (finish : token.isFinish = true) :
    c.position = source.utf8ByteSize := by
  rw [h.position_eq, h.scanned]
  rw [h.scanned] at ht
  obtain ⟨i, hi, rfl⟩ := List.mem_map.mp ht
  generalize n + c.waiting.toList.length = k at hi
  cases k with
  | zero => cases hi
  | succ k =>
    have le : i ≤ k := Nat.le_of_lt_succ (List.mem_range.mp hi)
    have last := isFinish_nth_iff.mpr (Nat.le_trans (isFinish_nth_iff.mp finish) le)
    have ended := endsAt_size (c := ofString source) rfl k last
    rw [size_ofString] at ended
    simp [List.range_succ, ended, Span.point]

/-- Each token is counted when it is scanned. -/
theorem scanned_eq (h : Serves source n handed scanned c) :
    c.scanned = handed.length + if c.waiting.any (fun token => !token.isFinish) then 1 else 0 := by
  have count (k : Nat) : ((ofString source).skip k).scanned = min k (tokens source).length := by
    rw [scanned_skip rfl]
    exact Nat.zero_add _
  rw [h.handed, List.length_take]
  rcases h.waiting with ⟨stands, waiting⟩ | ⟨stands, waiting⟩
  · have scanned : c.scanned = ((ofString source).skip n).scanned := congrArg (·.scanned) stands
    rw [scanned, count, waiting]
    rfl
  · have scanned : c.scanned = ((ofString source).skip n).peek.2.scanned :=
      congrArg (·.scanned) stands
    rw [scanned, scanned_peek (waiting_skip rfl n), next_skip, count, waiting]
    cases finish : ((ofString source).nth n).isFinish with
    | true =>
      have used := isFinish_nth_iff.mp finish
      simp [finish]
      omega
    | false =>
      have more : ¬ (tokens source).length ≤ n := by
        rw [← isFinish_nth_iff, finish]
        simp
      simp [finish]
      omega

end Serves

end Cursor

/-- How a cursor of a text answers that was made some requests before. -/
structure Faithful (source : String) (requests : List Request) (c : Cursor) : Prop where
  /-- The tokens that were handed out are the first ones of the text, each of them once. -/
  handed : (Cursor.ofString source).handed requests <+: tokens source
  /-- The next token is the first of the others, or the end of the text, whether the stream has
  stopped or not. -/
  next : c.next.1 = (tokens source)[((Cursor.ofString source).handed requests).length]?.getD
    ⟨.finish, .point source.utf8ByteSize, ""⟩
  /-- The token that is looked at is the one that is handed out next, and then all goes on as if
  nobody had looked. -/
  peeked : c.peek.1 = c.peek.2.next.1 ∧ c.peek.2.next = c.next
  /-- Before anything is scanned the cursor is at the start of the text, -/
  start : (Cursor.ofString source).scannedFor requests = [] → c.position = 0
  /-- then at the end of the token that was scanned last, -/
  position : ∀ token ∈ ((Cursor.ofString source).scannedFor requests).getLast?,
    c.position = token.span.stop
  /-- and once the end of the text was scanned, there. -/
  stop : ∀ token ∈ (Cursor.ofString source).scannedFor requests, token.isFinish = true →
    c.position = source.utf8ByteSize
  /-- The tokens that were handed out are counted, and one that is waiting. -/
  counted : c.scanned = ((Cursor.ofString source).handed requests).length +
    if c.waiting.any (fun token => !token.isFinish) then 1 else 0
  /-- Until the stream meets the end of the text or an invalid token, it gives the next token. -/
  running : (Cursor.ofString source).halted requests = false →
    c.step.1 = (some c.next.1).filter fun token => !token.isFinish
  /-- After that it gives nothing and takes nothing, whatever else is asked for. -/
  halted : (Cursor.ofString source).halted requests = true →
    ∀ more, (c.after more).step = (none, c.after more)

/-- Looking ahead never changes what is read: in whatever order a cursor is asked to show its next
token, to hand it out and to give it as a stream does, the tokens of the text come out one after the
other. -/
theorem looking_ahead (source : String) (requests : List Request) :
    Faithful source requests ((Cursor.ofString source).after requests) := by
  obtain ⟨n, served⟩ := (Cursor.serves_ofString source).after requests
  rw [List.nil_append, List.nil_append] at served
  have stopped : ((Cursor.ofString source).after requests).stopped =
      (Cursor.ofString source).halted requests := Cursor.stopped_after _ _
  have position := served.position_eq
  exact {
    handed := served.handed ▸ List.take_prefix n _
    next := by
      rw [served.first_eq, served.handed, Cursor.nth_ofString, List.length_take]
      congr 1
      rcases Nat.le_total n (tokens source).length with le | le
      · rw [Nat.min_eq_left le]
      · rw [Nat.min_eq_right le, List.getElem?_eq_none le, List.getElem?_eq_none (Nat.le_refl _)]
    peeked := ⟨(Cursor.next_peek _).symm, Cursor.next_of_peek _⟩
    start := fun none => by rw [position, none]; rfl
    position := fun token last => by rw [position, Option.mem_def.mp last]; rfl
    stop := fun token ht finish => served.position_of_finish ht finish
    counted := served.scanned_eq
    running := fun on => Cursor.fst_step (stopped.trans on)
    halted := fun off more => Cursor.step_after (stopped.trans off) more }

-- The stream stops at the second token, and what comes after it is still handed out.
example : ((Cursor.ofString "2 $ x").handed [.peek, .step, .step, .step, .next, .next]).map
    Token.text = ["2", "$", "x"] := by
  decide +kernel

end Formula
