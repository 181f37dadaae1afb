import Calculator.Proofs.Acceptance
import Calculator.Tree.Equality

/-!
# Where the parser fails

When the parser fails, it has gone past some tokens, and there is a token it did not get past. An
error is found as early as it can be: what was gone past still begins some program, and with the
next token nothing does.

**Theorem (`viable_of_reading`).** Tokens that the automaton has read begin a program: a literal
where an operand is due, the closing of all open brackets and a stop make one of them, and it is no
deeper than the state.

**Theorem (`parse_error_correct_prefix`).** What is known of the accepted tokens at each kind of
failure. Past the limit on nesting the parser goes one token further than it could: the token that
leads past the limit is accepted, and the error comes before the next one.
-/

namespace Calculator

open Cursor Automaton State

/-- The tokens begin a program of no greater depth. -/
def Viable (limit : Nat) (ts : List Token) : Prop :=
  ∃ d : Derivation .program, d.depth ≤ limit ∧ ts <+: d.yield

/-! ## Viable tokens -/

section Viable

variable {limit : Nat} {s s' : State} {ts : List Token}

/-- Tokens that complete a program. -/
def completion (s : State) : List Token :=
  (if s.due then [.number ⟨0, rfl⟩] else []) ++ (s.opened.map (·.1.closer) ++ [.stop])

theorem judge_closers {k : Nat} {opened : List (Bracket × Nat)} (h : k + around opened ≤ limit) :
    judge limit ⟨false, k, opened⟩ (opened.map (·.1.closer) ++ [.stop]) = .accepted := by
  induction opened generalizing k with
  | nil =>
    rw [List.map_nil, List.nil_append, judge_singleton, step_of_le h]
    rfl
  | cons bracket opened ih =>
    obtain ⟨b, m⟩ := bracket
    have hm : State.move ⟨false, k, (b, m) :: opened⟩ b.closer = .reading ⟨false, m, opened⟩ := by
      cases b <;> rfl
    rw [List.map_cons, List.cons_append, judge, step_of_le h, hm]
    simp only [around] at h
    exact ih (by omega)

theorem judge_completion (h : s.depth ≤ limit) : judge limit s (completion s) = .accepted := by
  obtain ⟨due, carets, opened⟩ := s
  cases due with
  | false => exact judge_closers h
  | true =>
    show judge limit _ (.number ⟨0, rfl⟩ :: (opened.map (·.1.closer) ++ [.stop])) = _
    rw [judge, step_of_le h]
    exact judge_closers h

/-- **What is read within the limit is viable.** -/
theorem viable_of_reading (h : judge limit start ts = .reading s) (hs : s.depth ≤ limit) :
    Viable limit ts := by
  have haccepted : judge limit start (ts ++ completion s) = .accepted := by
    rw [judge_append, h]
    exact judge_completion hs
  obtain ⟨d, hd, hy⟩ := judge_eq_accepted_iff.1 haccepted
  refine ⟨d, hd, ?_⟩
  rcases List.prefix_or_prefix_of_prefix hy (List.prefix_append ts _) with hp | hp
  · -- The program would end among the tokens read, but they hold no stop.
    have hstop : .stop ∈ d.yield := by
      rw [d.yield_eq_tokens.1]
      exact List.mem_append_right _ (List.mem_singleton_self _)
    exact absurd (hp.subset hstop) (not_mem_of_reading h).1
  · exact hp

/-- The limit matters only in that it may be exceeded. -/
theorem judge_of_reading (h : judge limit s ts = .reading s') (n : Nat) :
    judge n s ts = .reading s' ∨ n < limit ∧ judge n s ts = .refused .nestingTooDeep := by
  induction ts generalizing s with
  | nil => exact .inl h
  | cons t ts ih =>
    rw [judge] at h
    cases ht : s.step limit t with
    | reading s₁ =>
      rw [ht] at h
      obtain ⟨hle, hm⟩ := step_eq_reading_iff.1 ht
      rw [judge]
      by_cases hn : s.depth ≤ n
      · rw [step_of_le hn, hm]
        exact ih h
      · rw [step_of_lt (Nat.lt_of_not_le hn)]
        exact .inr ⟨by omega, rfl⟩
    | accepted => rw [ht] at h; cases h
    | refused e => rw [ht] at h; cases h

theorem exists_viable_of_reading (h : judge limit start ts = .reading s) :
    ∃ n, Viable n ts := by
  refine ⟨max limit s.depth, ?_⟩
  rcases judge_of_reading h (max limit s.depth) with hr | ⟨hlt, -⟩
  · exact viable_of_reading hr (Nat.le_max_right _ _)
  · exact absurd (Nat.le_max_left limit s.depth) (Nat.not_le.2 hlt)

theorem Viable.exists_accepted (h : Viable limit ts) :
    ∃ us, judge limit start (ts ++ us) = .accepted := by
  obtain ⟨d, hd, us, hus⟩ := h
  refine ⟨us, ?_⟩
  rw [hus]
  exact judge_eq_accepted_iff.2 ⟨d, hd, List.prefix_refl _⟩

/-- A token that is refused whatever the depth leaves nothing viable. -/
theorem not_viable_of_refused {t : Token} {e : ParseError} (h : judge limit start ts = .reading s)
    (ht : s.move t = .refused e) (n : Nat) : ¬Viable n (ts ++ [t]) := by
  intro hv
  obtain ⟨us, hus⟩ := hv.exists_accepted
  rw [List.append_assoc, judge_append] at hus
  rcases judge_of_reading h n with hr | ⟨-, hr⟩
  · rw [hr] at hus
    change judge n s (t :: us) = .accepted at hus
    rw [judge] at hus
    by_cases hn : s.depth ≤ n
    · rw [step_of_le hn, ht] at hus
      cases hus
    · rw [step_of_lt (Nat.lt_of_not_le hn)] at hus
      cases hus
  · rw [hr] at hus
    cases hus

/-- What led past the limit is not viable within it. -/
theorem not_viable_of_lt (h : judge limit start ts = .reading s) (hs : limit < s.depth) :
    ¬Viable limit ts := by
  intro hv
  obtain ⟨us, hus⟩ := hv.exists_accepted
  rw [judge_append, h] at hus
  change judge limit s us = .accepted at hus
  cases us with
  | nil => cases hus
  | cons u us =>
    rw [judge, step_of_lt hs] at hus
    cases hus

/-- Before the last token that was read, the limit was kept. -/
theorem viable_dropLast (h : judge limit start ts = .reading s) (hs : limit < s.depth) :
    Viable limit ts.dropLast := by
  rcases List.eq_nil_or_concat ts with rfl | ⟨ts, t, rfl⟩
  · cases h
    exact absurd hs (Nat.not_lt_zero limit)
  · rw [List.concat_eq_append] at h ⊢
    rw [judge_append] at h
    rw [List.dropLast_concat]
    cases hr : judge limit start ts with
    | reading s₁ =>
      rw [hr] at h
      have ht := (judge_singleton limit s₁ t).symm.trans h
      exact viable_of_reading hr (step_eq_reading_iff.1 ht).1
    | accepted => rw [hr] at h; cases h
    | refused e => rw [hr] at h; cases h

end Viable

/-! ## The accepted tokens -/

namespace Cursor

theorem log_of_fetch {c c' : Cursor} {u : Unit} (h : fetch c = .ok u c') :
    c'.log.length = c.log.length + 1 := by
  unfold fetch at h
  split at h
  · cases h
    rfl
  · cases h

theorem log_of_pass {c c' : Cursor} {u : Unit} (h : pass c = .ok u c') :
    c.log.length < c'.log.length := by
  rw [pass_eq_fetch] at h
  -- What the move reports comes before the record of the next token.
  have hlog := log_of_fetch h
  rw [List.length_append] at hlog
  omega

theorem log_of_passes {c c' : Cursor} {ts : List Token} (h : Passes c ts c') :
    c.log.length + ts.length ≤ c'.log.length := by
  induction h with
  | refl c => exact Nat.le_refl _
  | step ha _ ih =>
    have := log_of_pass ha
    rw [List.length_cons]
    omega

/-- The log grows with every token, so no cursor comes back to where it was. -/
theorem Passes.eq_nil {c : Cursor} {ts : List Token} (h : Passes c ts c) : ts = [] := by
  have := log_of_passes h
  exact List.eq_nil_of_length_eq_zero (by omega)

/-- Of two trails from the same cursor, one goes on where the other ends. -/
theorem Passes.total {c c₁ c₂ : Cursor} {ts us : List Token} (h₁ : Passes c ts c₁)
    (h₂ : Passes c us c₂) : (∃ vs, us = ts ++ vs ∧ Passes c₁ vs c₂) ∨
      ∃ vs, ts = us ++ vs ∧ Passes c₂ vs c₁ := by
  induction h₁ generalizing us with
  | refl c => exact .inl ⟨us, rfl, h₂⟩
  | @step c c' c₁ ts ha hp ih =>
    cases h₂ with
    | refl => exact .inr ⟨_, rfl, .step ha hp⟩
    | step ha' hp' =>
      rw [ha] at ha'
      cases ha'
      rcases ih hp' with ⟨vs, rfl, hv⟩ | ⟨vs, rfl, hv⟩
      · exact .inl ⟨vs, rfl, hv⟩
      · exact .inr ⟨vs, rfl, hv⟩

/-- One trail leads to a cursor. -/
theorem Passes.unique {c c' : Cursor} {ts us : List Token} (h₁ : Passes c ts c')
    (h₂ : Passes c us c') : ts = us := by
  rcases h₁.total h₂ with ⟨vs, rfl, hv⟩ | ⟨vs, rfl, hv⟩
  · rw [hv.eq_nil, List.append_nil]
  · rw [hv.eq_nil, List.append_nil]

/-- A trail that goes on begins with a move that succeeds. -/
theorem Passes.eq_of_pass_error {c c' c'' : Cursor} {ts : List Token} {e : Error}
    (h : Passes c ts c') (ha : pass c = .error e c'') : ts = [] ∧ c = c' := by
  cases h with
  | refl => exact ⟨rfl, rfl⟩
  | step hgo => rw [ha] at hgo; cases hgo

/-- One trail leads to a cursor that cannot move. -/
theorem Passes.unique_of_pass_error {c c₁ c₂ c₁' c₂' : Cursor} {ts us : List Token}
    {e e' : Error} (h₁ : Passes c ts c₁) (h₂ : Passes c us c₂) (ha₁ : pass c₁ = .error e c₁')
    (ha₂ : pass c₂ = .error e' c₂') : ts = us ∧ c₁ = c₂ := by
  rcases h₁.total h₂ with ⟨vs, rfl, hv⟩ | ⟨vs, rfl, hv⟩
  · obtain ⟨rfl, rfl⟩ := hv.eq_of_pass_error ha₁
    simp
  · obtain ⟨rfl, rfl⟩ := hv.eq_of_pass_error ha₂
    simp

end Cursor

/-- The tokens that the parser has accepted when it fails: those that it went past, also if the next
token could not be had then. -/
inductive AcceptedAtFailure (source : Reader) : List Token → Prop
  /-- Not even the first token could be had. -/
  | first {e : Error} {c : Cursor} : fetch (.start source) = .error e c →
      AcceptedAtFailure source []
  /-- The parser stopped at a token. -/
  | stopped {e : ParseError} {c₀ c : Cursor} {ts : List Token} :
      fetch (.start source) = .ok () c₀ → Passes c₀ ts c →
      Grammar.wholeProgram (.start source) = .error (.parse e) c → AcceptedAtFailure source ts
  /-- The parser could not go past a token for want of the next one. -/
  | starved {e : Error} {c₀ c₁ c : Cursor} {ts : List Token} :
      fetch (.start source) = .ok () c₀ → Passes c₀ ts c₁ → pass c₁ = .error e c →
      Grammar.wholeProgram (.start source) = .error e c →
      AcceptedAtFailure source (ts ++ [c₁.current])

/-- Only one row of tokens is accepted. -/
theorem AcceptedAtFailure.unique {source : Reader} {ts us : List Token}
    (h : AcceptedAtFailure source ts) (h' : AcceptedAtFailure source us) : ts = us := by
  cases h with
  | first hf =>
    cases h' with
    | first => rfl
    | stopped hf' => rw [hf] at hf'; cases hf'
    | starved hf' => rw [hf] at hf'; cases hf'
  | stopped hf hp hw =>
    cases h' with
    | first hf' => rw [hf] at hf'; cases hf'
    | stopped hf' hp' hw' =>
      cases hf.symm.trans hf'
      cases hw.symm.trans hw'
      exact hp.unique hp'
    | starved hf' hp' ha' hw' =>
      obtain ⟨le, rfl, -⟩ := drain_of_pass_error ha'
      cases hw.symm.trans hw'
  | starved hf hp ha hw =>
    cases h' with
    | first hf' => rw [hf] at hf'; cases hf'
    | stopped hf' hp' hw' =>
      obtain ⟨le, rfl, -⟩ := drain_of_pass_error ha
      cases hw.symm.trans hw'
    | starved hf' hp' ha' hw' =>
      cases hf.symm.trans hf'
      obtain ⟨rfl, rfl⟩ := hp.unique_of_pass_error hp' ha ha'
      rfl

/-! ## The kinds of failure -/

theorem move_eq_refused {s : State} {t : Token} {e : ParseError} (h : s.move t = .refused e) :
    e = .unexpected t ∨ ∃ expected, e = .mismatch expected t := by
  unfold move at h
  split at h
  · unfold operand at h
    split at h <;> cases h
    exact .inl rfl
  · unfold operator at h
    split at h
    · cases h
    · split at h
      · cases h
      · split at h
        · split at h
          · cases h
          · split at h <;> cases h
            exact .inr ⟨_, rfl⟩
        · split at h <;> cases h
          exact .inr ⟨_, rfl⟩

/-- What is known of the accepted tokens `c` at a failure. At a token that cannot follow, they are
viable, and with that token nothing is, at any depth. Past the limit on nesting they are viable only
without the limit, but were so within it before the last one. Where no token can be had, they are
all tokens before the first lexical error, and are viable without the limit. -/
def CorrectPrefix (source : Reader) (c : List Token) : Error → Prop
  | .parse (.unexpected t) => Viable maxNesting c ∧ ∀ n, ¬Viable n (c ++ [t])
  | .parse (.mismatch _ t) => Viable maxNesting c ∧ ∀ n, ¬Viable n (c ++ [t])
  | .parse .nestingTooDeep =>
    (∃ n, Viable n c) ∧ ¬Viable maxNesting c ∧ Viable maxNesting c.dropLast
  | .lexical e =>
    source.fault = some e ∧ source.tokens = c ∧ .stop ∉ c ∧ ∃ n, Viable n c
  | .runtime _ => False

theorem correctPrefix_of_refused {source : Reader} {s : State} {ts : List Token} {t : Token}
    {e : ParseError} (hr : judge maxNesting start ts = .reading s)
    (ht : s.step maxNesting t = .refused e) : CorrectPrefix source ts (.parse e) := by
  by_cases hs : s.depth ≤ maxNesting
  · rw [step_of_le hs] at ht
    have hc : Viable maxNesting ts ∧ ∀ n, ¬Viable n (ts ++ [t]) :=
      ⟨viable_of_reading hr hs, not_viable_of_refused hr ht⟩
    rcases move_eq_refused ht with rfl | ⟨expected, rfl⟩
    · exact hc
    · exact hc
  · have hlt := Nat.lt_of_not_le hs
    rw [step_of_lt hlt] at ht
    cases ht
    exact ⟨exists_viable_of_reading hr, not_viable_of_lt hr hlt, viable_dropLast hr hlt⟩

/-- Where the tokens end with a lexical error. -/
theorem correctPrefix_of_fault {source : Reader} {s : State} {ts : List Token} {e : LexicalError}
    (hr : judge maxNesting start ts = .reading s) (ht : source.tokens = ts)
    (hf : source.fault = some e) : CorrectPrefix source ts (.lexical e) :=
  ⟨hf, ht, (not_mem_of_reading hr).1, exists_viable_of_reading hr⟩

/-- **Errors are found at the first hopeless token.** -/
theorem parse_error_correct_prefix {source : Reader} {e : Error} (h : parse source = .error e) :
    ∃ c, AcceptedAtFailure source c ∧ (∀ ts, AcceptedAtFailure source ts → ts = c) ∧
      CorrectPrefix source c e := by
  suffices hc : ∃ c, AcceptedAtFailure source c ∧ CorrectPrefix source c e by
    obtain ⟨c, hacc, hc⟩ := hc
    exact ⟨c, hacc, fun ts hts => hts.unique hacc, hc⟩
  unfold parse at h
  split at h
  · cases h
  · next e' c' hw =>
    cases h
    rcases Grammar.wholeProgram_stuck hw with hf | ⟨c₀, hf, hs⟩
    · obtain ⟨le, rfl, hd⟩ := drain_of_fetch_error hf
      exact ⟨[], .first hf,
        correctPrefix_of_fault rfl (congrArg Prod.fst hd) (congrArg Prod.snd hd)⟩
    · cases hs with
      | @refused ts s₁ _ e hp hr ht => exact ⟨ts, .stopped hf hp hw, correctPrefix_of_refused hr ht⟩
      | @starved ts s₁ s₂ c₁ _ _ hp hr ht ha =>
        obtain ⟨le, rfl, hd⟩ := drain_of_pass_error ha
        have hne := (ne_of_move_reading (step_eq_reading_iff.1 ht).2).2
        obtain ⟨htoks, hfault⟩ := tokens_of_passes hf hp (not_mem_of_reading hr).2 hne
        rw [hd] at htoks hfault
        exact ⟨_, .starved hf hp ha hw, correctPrefix_of_fault (judge_snoc hr ht) htoks hfault⟩

/-- In `1 + (2 * ) .` the closing parenthesis is the first hopeless token. -/
theorem parse_error_correct_prefix_paren :
    parse (.ofString "1 + (2 * ) .") = .error (.parse (.unexpected .rightParen)) ∧
      ∃ c, AcceptedAtFailure (.ofString "1 + (2 * ) .") c ∧ Viable maxNesting c ∧
        ∀ n, ¬Viable n (c ++ [.rightParen]) := by
  have h : parse (.ofString "1 + (2 * ) .") = .error (.parse (.unexpected .rightParen)) := by
    decide +kernel
  obtain ⟨c, hacc, -, hc⟩ := parse_error_correct_prefix h
  exact ⟨h, c, hacc, hc⟩

end Calculator
