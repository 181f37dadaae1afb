import Calculator.Proofs.ExactEvaluation
import Calculator.Proofs.Unread

/-!
# What a run reports

Three parts of a run write its log: the lexer reports the tokens that it gives, the parser the
brackets, bars, carets and semicolons that it goes past, and in the end come the program and the
number of its values. None of them knows of the others, and yet the log can be read off the answers
that the lexer gave to the parser.

**Theorem (`Reader.Requests.unique`).** The answers to the requests of a parser are determined by
the lexer and the token that it leaves.

**Theorem (`log_determined_by_tokens`).** Every answer is reported once and in order, and right
after it that the parser went past it, if it did and the token is one of those. What comes then
depends on whether there is a program and whether it has values.

The parser goes past each token by the move that the grammar has for it, as was seen rule by rule in
its descent, so it is enough to know what one such move reports (`Told.pass`).
-/

namespace Calculator

open Cursor Automaton

/-! ## Requests -/

/-- What a parser was given for its requests: tokens, after each of which it asked for another one,
and a last answer. -/
structure Reader.Requests (source : Reader) (passed : List Token)
    (last : Except LexicalError Token) : Prop where
  /-- A new lexer gives these answers, and is left as the parser leaves it. -/
  calls : Lexer.calls { reader := source } (List.replicate (passed.length + 1) .token) =
    (passed.map (fun t => some (.ok t)) ++ [some last], source.final.lexer)
  eof_not_mem : .eof ∉ passed
  /-- A last token is the one at which the parser ends. -/
  current : ∀ t, last = .ok t → source.final.current = t
  /-- There is an error only if it is what the parser fails with. -/
  error_iff : ∀ e, last = .error e ↔ parse source = .error (.lexical e)

namespace Lexer

variable {l l' f : Lexer} {t : Token} {ts us : List Token} {e : LexicalError}
  {last : Except LexicalError Token}

theorem calls_token_of_ok (h : l.next = .ok t l') : l.calls [.token] = ([some (.ok t)], l') := by
  rw [calls, call_of_ok h]
  rfl

theorem calls_token_of_error (h : l.next = .error e l') :
    l.calls [.token] = ([some (.error e)], l') := by
  rw [calls, call_token_of_error h]
  rfl

/-- The first of several tokens, and the lexer that gives the others. -/
theorem calls_cons {cs : List Call} {answers : List Answer}
    (h : l.calls (.token :: cs) = (some (.ok t) :: answers, l')) :
    ∃ l₁, l.next = .ok t l₁ ∧ l₁.calls cs = (answers, l') := by
  rw [calls, Prod.mk.injEq, List.cons.injEq] at h
  obtain ⟨⟨ht, hanswers⟩, hl⟩ := h
  exact ⟨_, call_token_eq_ok (Prod.ext ht rfl), Prod.ext hanswers hl⟩

/-- Every token other than `eof` leaves less of the input. -/
theorem size_of_calls (h : l.calls (List.replicate ts.length .token) =
    (ts.map (fun t => some (.ok t)), l')) (ht : .eof ∉ ts) : l'.size + ts.length ≤ l.size := by
  induction ts generalizing l with
  | nil =>
    cases h
    exact Nat.le_refl _
  | cons t ts ih =>
    rw [List.mem_cons, not_or] at ht
    obtain ⟨l₁, hn, hcalls⟩ := calls_cons h
    have hlt := (size_of_next hn).2 (Ne.symm ht.1)
    have hle := ih hcalls ht.2
    rw [List.length_cons]
    omega

/-- A lexer does not come back to where it was. -/
theorem false_of_calls (h : l.calls (List.replicate (ts.length + 1) .token) =
    (ts.map (fun t => some (.ok t)) ++ [some (.ok t)], l)) (ht : .eof ∉ t :: ts) : False := by
  rw [List.mem_cons, not_or] at ht
  have hle : l.size + (ts ++ [t]).length ≤ l.size := by
    apply size_of_calls
    · rw [List.length_append, List.map_append]
      exact h
    · simp [ht]
  rw [List.length_append, List.length_singleton] at hle
  omega

theorem tokens_unique
    (h : l.calls (List.replicate (ts.length + 1) .token) =
      (ts.map (fun t => some (.ok t)) ++ [some last], f))
    (h' : l.calls (List.replicate (us.length + 1) .token) =
      (us.map (fun t => some (.ok t)) ++ [some last], f))
    (ht : .eof ∉ ts) (hu : .eof ∉ us) : ts = us := by
  induction ts generalizing l us with
  | nil =>
    cases us with
    | nil => rfl
    | cons u us =>
      -- The answer to the first request is also the one to the last, and the lexer is the same.
      obtain ⟨l₁, hn, hcalls⟩ := calls_cons h'
      cases h.symm.trans (calls_token_of_ok hn)
      exact (false_of_calls hcalls hu).elim
  | cons t ts ih =>
    obtain ⟨l₁, hn, hcalls⟩ := calls_cons h
    cases us with
    | nil =>
      cases h'.symm.trans (calls_token_of_ok hn)
      exact (false_of_calls hcalls ht).elim
    | cons u us =>
      obtain ⟨l₂, hn', hcalls'⟩ := calls_cons h'
      rw [hn] at hn'
      cases hn'
      rw [List.mem_cons, not_or] at ht hu
      rw [ih hcalls hcalls' ht.2 hu.2]

end Lexer

/-- **The requests of a parser are determined.** -/
theorem Reader.Requests.unique {source : Reader} {passed passed' : List Token}
    {last last' : Except LexicalError Token} (h : source.Requests passed last)
    (h' : source.Requests passed' last') : passed = passed' ∧ last = last' := by
  have hlast : last = last' := by
    cases last with
    | error e => exact ((h'.error_iff e).2 ((h.error_iff e).1 rfl)).symm
    | ok t =>
      cases last' with
      | error e => exact nomatch (h.error_iff e).2 ((h'.error_iff e).1 rfl)
      | ok t' => rw [← h.current t rfl, h'.current t' rfl]
  subst hlast
  exact ⟨Lexer.tokens_unique h.calls h'.calls h.eof_not_mem h'.eof_not_mem, rfl⟩

/-! ## Records -/

namespace Record

/-- What is reported of a token that the parser went past. -/
def ofPassed (t : Token) : List Record :=
  if t ∈ [.leftParen, .rightParen, .bar, .caret, .semicolon] then [.lexed t, .matched t]
  else [.lexed t]

/-- What is reported of the last answer that the parser was given. -/
def ofLast : Except LexicalError Token → List Record
  | .ok t => [.lexed t]
  | .error _ => []

/-- What is reported of the program that was read, if there is one. -/
def ofProgram : Except Error Program → List Record
  | .ok p => [.parsed p]
  | .error _ => []

/-- What is reported of the values of a program. -/
def ofValues : Except Error Program → List Record
  | .ok p =>
    match p.eval with
    | .ok _ => [.evaluated p.items.length]
    | .error _ => []
  | .error _ => []

/-- The tokens that are reported are those that the grammar expects. -/
theorem ofPassed_eq (t : Token) :
    ofPassed t = .lexed t :: (Move.past t).records := by
  cases t <;> rfl

/-- The token that a record tells of, if the parser went past it. -/
def matched? : Record → Option Token
  | .matched t => some t
  | _ => none

theorem lexed?_ofPassed (ts : List Token) : (ts.flatMap ofPassed).filterMap lexed? = ts := by
  induction ts with
  | nil => rfl
  | cons t ts ih =>
    rw [List.flatMap_cons, List.filterMap_append, ih]
    cases t <;> rfl

theorem matched?_ofPassed (ts : List Token) : (ts.flatMap ofPassed).filterMap matched? =
    ts.filter (· ∈ [.leftParen, .rightParen, .bar, .caret, .semicolon]) := by
  induction ts with
  | nil => rfl
  | cons t ts ih =>
    rw [List.flatMap_cons, List.filterMap_append, ih]
    cases t <;> rfl

/-- Nothing else tells that the parser went past a token. -/
theorem matched?_rest (last : Except LexicalError Token) (result : Except Error Program) :
    (ofLast last ++ ofProgram result ++ ofValues result).filterMap matched? = [] := by
  have hlast : (ofLast last).filterMap matched? = [] := by cases last <;> rfl
  cases result with
  | error e => simp [hlast, ofProgram, ofValues]
  | ok p => cases heval : p.eval <;> simp [hlast, heval, ofProgram, ofValues, matched?]

end Record

/-! ## What a move reports -/

namespace Cursor

/-- The parser went past some tokens and is about to ask for another one. -/
structure Waits (source : Reader) (passed : List Token) (c : Cursor) : Prop where
  heard : Heard source (passed.map .ok) c
  log : c.log.reverse = passed.flatMap Record.ofPassed

/-- The parser went past some tokens and was given another answer. -/
structure Told (source : Reader) (passed : List Token) (last : Except LexicalError Token)
    (c : Cursor) : Prop where
  heard : Heard source (passed.map .ok ++ [last]) c
  log : c.log.reverse = passed.flatMap Record.ofPassed ++ Record.ofLast last
  current : ∀ t, last = .ok t → c.current = t

variable {source : Reader} {passed : List Token} {last : Except LexicalError Token}
  {c c' : Cursor}

theorem waits_start (source : Reader) : Waits source [] (.start source) := ⟨heard_start source, rfl⟩

theorem Waits.fetch_ok {u : Unit} (h : Waits source passed c) (hf : fetch c = .ok u c') :
    Told source passed (.ok c'.current) c' := by
  have hheard := h.heard.fetch_ok hf
  have hlog : c'.log = .lexed c'.current :: c.log := by
    unfold fetch at hf
    split at hf
    · cases hf
      rfl
    · cases hf
  refine ⟨hheard, ?_, fun t ht => Except.ok.inj ht⟩
  rw [hlog, List.reverse_cons, h.log]
  rfl

theorem Waits.fetch_error {e : Error} (h : Waits source passed c) (hf : fetch c = .error e c') :
    ∃ le, e = .lexical le ∧ Told source passed (.error le) c' := by
  obtain ⟨le, rfl, hheard⟩ := h.heard.fetch_error hf
  have hlog : c'.log = c.log := by
    unfold fetch at hf
    split at hf
    · cases hf
    · cases hf
      rfl
  refine ⟨le, rfl, hheard, ?_, fun t ht => nomatch ht⟩
  rw [hlog, h.log]
  exact (List.append_nil _).symm

/-- Going past a token is reporting it, if its move does, and asking for the next. -/
theorem Told.pass (h : Told source passed (.ok c.current) c) :
    ∃ d, Waits source (passed ++ [c.current]) d ∧ pass c = fetch d := by
  have hheard := h.heard
  have hlog := h.log
  rw [← List.map_singleton, ← List.map_append] at hheard
  refine ⟨_, ?_, pass_eq_fetch c⟩
  have hpassed := Record.ofPassed_eq c.current
  cases hm : Move.past c.current with
  | advance =>
    refine ⟨hheard, ?_⟩
    simp [hlog, hpassed, hm, Move.records, Record.ofLast]
  | expect t =>
    refine ⟨hheard.report rfl, ?_⟩
    simp [hlog, hpassed, hm, Move.records, Record.ofLast]

/-- **What a row of moves reports.** -/
theorem Told.passes {ts : List Token} (hp : Passes c ts c')
    (h : Told source passed (.ok c.current) c) :
    Told source (passed ++ ts) (.ok c'.current) c' := by
  induction hp generalizing passed with
  | refl c => rwa [List.append_nil]
  | @step c c₁ c' ts ha _ ih =>
    obtain ⟨d, hd, had⟩ := h.pass
    rw [had] at ha
    have h' := ih (hd.fetch_ok ha)
    rwa [List.append_assoc] at h'

/-- The answers to a parser are requests of the reader. -/
theorem Told.requests (h : Told source passed last c) (hl : source.final.lexer = c.lexer)
    (hc : source.final.current = c.current) (ht : .eof ∉ passed)
    (he : ∀ e, last = .error e ↔ parse source = .error (.lexical e)) :
    source.Requests passed last := by
  refine ⟨?_, ht, fun t hlast => hc.trans (h.current t hlast), he⟩
  have hcalls := h.heard.calls
  rw [List.length_append, List.length_map, List.length_singleton, List.map_append,
    List.map_map] at hcalls
  rw [hl]
  exact hcalls

end Cursor

/-! ## The log of a run -/

theorem requests_of_ok {source : Reader} {p : Program} {c : Cursor}
    (h : Grammar.wholeProgram (.start source) = .ok p c) :
    ∃ passed last, source.Requests passed last ∧
      c.log.reverse = passed.flatMap Record.ofPassed ++ Record.ofLast last ++ [.parsed p] := by
  have hfinal : source.final = c := by rw [Reader.final, h]; rfl
  have hparse : parse source = .ok p := by rw [parse, h]
  obtain ⟨c₀, c₁, ts, hf, hp, hc, rfl, d, -, hy, -⟩ := Grammar.wholeProgram_derives h
  have heof : .eof ∉ ts := fun hm => d.not_mem_yield.1 (hy ▸ List.mem_append_left _ hm)
  have htold := ((waits_start source).fetch_ok hf).passes hp
  refine ⟨ts, .ok c₁.current, ?_, ?_⟩
  · apply htold.requests
    · rw [hfinal]
    · rw [hfinal]
    · exact heof
    · simp [hparse]
  · rw [List.reverse_cons, htold.log]
    rfl

theorem requests_of_error {source : Reader} {e : Error} {c : Cursor}
    (h : Grammar.wholeProgram (.start source) = .error e c) :
    ∃ passed last, source.Requests passed last ∧
      c.log.reverse = passed.flatMap Record.ofPassed ++ Record.ofLast last := by
  have hfinal : source.final = c := by rw [Reader.final, h]; rfl
  have hparse : parse source = .error e := by rw [parse, h]
  rcases Grammar.wholeProgram_stuck h with hf | ⟨c₀, hf, hstuck⟩
  · obtain ⟨le, rfl, htold⟩ := (waits_start source).fetch_error hf
    refine ⟨[], .error le, ?_, htold.log⟩
    apply htold.requests <;> simp [hfinal, hparse]
  have htold₀ := (waits_start source).fetch_ok hf
  cases hstuck with
  | @refused ts s₁ _ e hp hr hs =>
    have htold := htold₀.passes hp
    refine ⟨ts, .ok c.current, ?_, htold.log⟩
    apply htold.requests
    · rw [hfinal]
    · rw [hfinal]
    · exact (not_mem_of_reading hr).2
    · simp [hparse]
  | @starved ts s₁ s₂ c₁ _ _ hp hr hs ha =>
    obtain ⟨d, hd, had⟩ := (htold₀.passes hp).pass
    obtain ⟨le, rfl, htold⟩ := hd.fetch_error (had ▸ ha)
    refine ⟨_, .error le, ?_, htold.log⟩
    apply htold.requests
    · rw [hfinal]
    · rw [hfinal]
    · exact (not_mem_of_reading (judge_snoc hr hs)).2
    · simp [hparse]

theorem length_of_eval {p : Program} {values : List Value} (h : p.eval = .ok values) :
    values.length = p.items.length := by
  have hexact := ((computes_program p).of_ok h).2
  simpa using congrArg List.length hexact

/-- What is reported until the program is read, and what is reported after that. -/
theorem log_of_requests (source : Reader) : ∃ passed last, source.Requests passed last ∧
    (run source).log = passed.flatMap Record.ofPassed ++ Record.ofLast last ++
      Record.ofProgram (parse source) ++ Record.ofValues (parse source) := by
  cases h : Grammar.wholeProgram (.start source) with
  | error e c =>
    have hparse : parse source = .error e := by rw [parse, h]
    obtain ⟨passed, last, hr, hlog⟩ := requests_of_error h
    refine ⟨passed, last, hr, ?_⟩
    rw [run, h, hparse]
    simp [hlog, Record.ofProgram, Record.ofValues]
  | ok p c =>
    have hparse : parse source = .ok p := by rw [parse, h]
    obtain ⟨passed, last, hr, hlog⟩ := requests_of_ok h
    refine ⟨passed, last, hr, ?_⟩
    rw [run, h, hparse]
    cases heval : p.eval with
    | error e => simp [heval, hlog, Record.ofProgram, Record.ofValues]
    | ok values => simp [heval, hlog, length_of_eval heval, Record.ofProgram, Record.ofValues]

/-- **The log of a run is determined by its tokens.** There is one row of answers that the lexer
gave to the parser. The log tells of every token among them, right after it that the parser went
past it, if the parser asked for another one and the token is a parenthesis, a bar, a caret or a
semicolon; then of the program, exactly if one was read; and then of the number of its expressions,
exactly if they have values. So if the parser fails at a token, that is the only one it was given
and did not go past, and the tokens that it is reported to have gone past are told in order and once
each. -/
theorem log_determined_by_tokens (source : Reader) :
    ∃ passed last, source.Requests passed last ∧
      (∀ passed' last', source.Requests passed' last' → passed' = passed ∧ last' = last) ∧
      (run source).log = passed.flatMap Record.ofPassed ++ Record.ofLast last ++
        Record.ofProgram (parse source) ++ Record.ofValues (parse source) ∧
      (∀ e, parse source = .error (.parse e) →
        ∃ t, last = .ok t ∧ (run source).log.filterMap Record.lexed? = passed ++ [t]) ∧
      (run source).log.filterMap Record.matched? =
        passed.filter (· ∈ [.leftParen, .rightParen, .bar, .caret, .semicolon]) := by
  obtain ⟨passed, last, hr, hlog⟩ := log_of_requests source
  refine ⟨passed, last, hr, fun passed' last' hr' => hr'.unique hr, hlog, fun e he => ?_, ?_⟩
  · cases last with
    | error le =>
      have hle := (hr.error_iff le).1 rfl
      rw [he] at hle
      cases hle
    | ok t =>
      refine ⟨t, rfl, ?_⟩
      simp [hlog, he, Record.lexed?_ofPassed, Record.ofLast, Record.ofProgram, Record.ofValues,
        Record.lexed?]
  · have hsplit : (run source).log = passed.flatMap Record.ofPassed ++ (Record.ofLast last ++
        Record.ofProgram (parse source) ++ Record.ofValues (parse source)) := by simp [hlog]
    rw [hsplit, List.filterMap_append, Record.matched?_ofPassed, Record.matched?_rest,
      List.append_nil]

/-- In `1+(2;3).` the parser fails at the semicolon, which is not reported to be gone past. -/
theorem log_determined_by_tokens_unclosed :
    let source : Reader := .ofString "1+(2;3)."
    parse source = .error (.parse (.mismatch .rightParen .semicolon)) ∧
      (∃ passed t, source.Requests passed (.ok t) ∧
        (run source).log.filterMap Record.lexed? = passed ++ [t] ∧
        (run source).log.filterMap Record.matched? =
          passed.filter (· ∈ [.leftParen, .rightParen, .bar, .caret, .semicolon])) ∧
      (run source).log.map Record.message = ["lexed token Num(1)", "lexed token Plus",
        "lexed token Open", "matched (", "lexed token Num(2)", "lexed token Break"] := by
  intro source
  have h : parse source = .error (.parse (.mismatch .rightParen .semicolon)) := by decide +kernel
  obtain ⟨passed, last, hr, -, -, hstopped, hmatched⟩ := log_determined_by_tokens source
  obtain ⟨t, rfl, hlexed⟩ := hstopped _ h
  exact ⟨h, ⟨passed, t, hr, hlexed, hmatched⟩, by decide +kernel⟩

end Calculator
