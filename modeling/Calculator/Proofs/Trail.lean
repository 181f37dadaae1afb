import Calculator.Parser.Cursor

/-!
# Cursors and the tokens ahead of them

A parser sees of its input only the tokens, one after another, and then the end of the input or
the first error: `Cursor.ahead` is that view. The parser moves through it silently or with a report,
as it is written in each rule. `Move.past` says which move it comes to be for a token, and
`Cursor.Passes` is a trail of these moves. The rules are compared with it where they are looked at.

**Theorem (`Cursor.pass_eq_fetch`).** What going past a token adds to the log depends on its move
alone, and the rest is taking the next token.

**Theorem (`Cursor.Passes.ahead_eq`).** The tokens that a cursor went past, followed by what is
ahead of it then, are what was ahead of it before.
-/

namespace Calculator

/-! ## The tokens of a lexer -/

namespace Lexer

/-- A lexer that has met the end of the input gives nothing but `eof`. -/
theorem next_of_finished {l : Lexer} (hf : l.finished = true) (hp : l.pushback = none) :
    l.next = .ok .eof l := by
  have hc : l.readChar = .ok none l := by
    rw [readChar, hp]
    simp [hf]
  rw [next]
  split
  · next h => rw [hc] at h; cases h
  · next h => rw [hc] at h; cases h; rfl
  · next h => rw [hc] at h; cases h

theorem item_of_eof {l l' : Lexer} (h : l.next = .ok .eof l') : l.item.1 = none := by
  unfold item
  split
  · rfl
  · rw [h]

theorem item_of_token {l l' : Lexer} {t : Token} (h : l.next = .ok t l') (ht : t ≠ .eof) :
    l.item = (some (.ok t), l') := by
  unfold item
  split
  · next hd =>
    rw [Bool.and_eq_true, Option.isNone_iff_eq_none] at hd
    rw [next_of_finished hd.1 hd.2] at h
    cases h
    exact absurd rfl ht
  · rw [h]
    cases t with
    | eof => exact absurd rfl ht
    | _ => rfl

theorem item_of_error {l l' : Lexer} {e : LexicalError} (h : l.next = .error e l') :
    l.item.1 = some (.error e) := by
  unfold item
  split
  · next hd =>
    rw [Bool.and_eq_true, Option.isNone_iff_eq_none] at hd
    rw [next_of_finished hd.1 hd.2] at h
    cases h
  · rw [h]

theorem drainAfter_append (us vs : List Token) (l : Lexer) :
    l.drainAfter (us ++ vs) = (vs.reverse ++ (l.drainAfter us).1, (l.drainAfter us).2) := by
  fun_induction drainAfter us l with
  | case1 us l l' h =>
    rw [drainAfter]
    split <;> simp_all
  | case2 us l e l' h =>
    rw [drainAfter]
    split <;> simp_all
  | case3 us l t l' h ih =>
    rw [drainAfter]
    split <;> simp_all

theorem drain_of_eof {l l' : Lexer} (h : l.next = .ok .eof l') : l.drain = ([], none) := by
  have hi := item_of_eof h
  rw [drain, drainAfter]
  split <;> simp_all

theorem drain_of_token {l l' : Lexer} {t : Token} (h : l.next = .ok t l') (ht : t ≠ .eof) :
    l.drain = (t :: l'.drain.1, l'.drain.2) := by
  have hi := item_of_token h ht
  rw [drain, drainAfter]
  split
  · next hn => rw [hi] at hn; cases hn
  · next hn => rw [hi] at hn; cases hn
  · next t' l'' hn =>
    rw [hi] at hn
    cases hn
    exact drainAfter_append [] [t] l'

theorem drain_of_error {l l' : Lexer} {e : LexicalError} (h : l.next = .error e l') :
    l.drain = ([], some e) := by
  have hi := item_of_error h
  rw [drain, drainAfter]
  split <;> simp_all

/-- No literal is negative. -/
theorem nonneg_of_next {l l' : Lexer} {v : Value} (h : l.next = .ok (.number v) l') :
    0 ≤ v.toInt := by
  fun_induction next l with
  | case1 l e l₁ hc => cases h
  | case2 l l₁ hc => cases h
  | case3 l c l₁ hc hb ih => exact ih h
  | case4 l c l₁ hc hb hd e l₂ hr => cases h
  | case5 l c l₁ hc hb hd ds l₂ hr e hl => cases h
  | case6 l c l₁ hc hb hd ds l₂ hr u hl =>
    cases h
    unfold literalToken at hl
    split at hl
    · next w hw =>
      cases hl
      rw [Value.ofInt?_eq_some_iff.1 hw]
      exact Int.natCast_nonneg _
    · cases hl
  | case7 l c l₁ hc hb hd u hp =>
    cases h
    unfold Token.ofPunctuation? at hp
    split at hp <;> cases hp
  | case8 l c l₁ hc hb hd hp => cases h

/-- Induction on the tokens that a lexer has still to give. -/
@[elab_as_elim]
theorem next_induction {motive : Lexer → Prop}
    (error : ∀ l e l', l.next = .error e l' → motive l)
    (eof : ∀ l l', l.next = .ok .eof l' → motive l)
    (token : ∀ l t l', l.next = .ok t l' → t ≠ .eof → motive l' → motive l) (l : Lexer) :
    motive l := by
  induction hn : l.size using Nat.strongRecOn generalizing l with
  | ind n ih =>
    cases ht : l.next with
    | error e l' => exact error l e l' ht
    | ok t l' =>
      by_cases he : t = .eof
      · subst he
        exact eof l l' ht
      · exact token l t l' ht he (ih l'.size (hn ▸ (size_of_next ht).2 he) l' rfl)

theorem nonneg_of_mem_drain {l : Lexer} {v : Value} (h : .number v ∈ l.drain.1) :
    0 ≤ v.toInt := by
  induction l using next_induction with
  | error l e l' ht =>
    rw [drain_of_error ht] at h
    cases h
  | eof l l' ht =>
    rw [drain_of_eof ht] at h
    cases h
  | token l t l' ht he ih =>
    rw [drain_of_token ht he] at h
    rcases List.mem_cons.1 h with rfl | h
    · exact nonneg_of_next ht
    · exact ih h

end Lexer

/-- The tokens of an input up to its end or the first error. -/
def Reader.tokens (source : Reader) : List Token := (Lexer.drain { reader := source }).1

/-- The error that the tokens of an input end with, if it is not the end of the input. -/
def Reader.fault (source : Reader) : Option LexicalError := (Lexer.drain { reader := source }).2

/-! ## The tokens ahead of a cursor -/

namespace Cursor

/-- The current token and all that come after it, and the error they end with, if it is not the
end of the input. -/
def ahead (c : Cursor) : List Token × Option LexicalError :=
  if c.current = .eof then ([], none) else (c.current :: c.lexer.drain.1, c.lexer.drain.2)

theorem ahead_of_ne {c : Cursor} (h : c.current ≠ .eof) :
    c.ahead = (c.current :: c.lexer.drain.1, c.lexer.drain.2) :=
  if_neg h

theorem ahead_of_fetch {c c' : Cursor} {u : Unit} (h : fetch c = .ok u c') :
    c'.ahead = c.lexer.drain := by
  unfold fetch at h
  split at h
  · next t l hn =>
    cases h
    by_cases ht : t = .eof
    · subst ht
      rw [Lexer.drain_of_eof hn]
      rfl
    · rw [Lexer.drain_of_token hn ht]
      exact ahead_of_ne ht
  · cases h

theorem drain_of_fetch_error {c c' : Cursor} {e : Error} (h : fetch c = .error e c') :
    ∃ le, e = .lexical le ∧ c.lexer.drain = ([], some le) := by
  unfold fetch at h
  split at h
  · cases h
  · next le l hn =>
    cases h
    exact ⟨le, rfl, Lexer.drain_of_error hn⟩

end Cursor

/-! ## Going past tokens -/

namespace Move

/-- The move by which the grammar goes past a token. -/
def past : Token → Move
  | .leftParen => .expect .leftParen
  | .rightParen => .expect .rightParen
  | .bar => .expect .bar
  | .caret => .expect .caret
  | .semicolon => .expect .semicolon
  | _ => .advance

/-- What a move reports of the token that it goes past. -/
def records : Move → List Record
  | .advance => []
  | .expect t => [.matched t]

/-- A token that is expected where the grammar goes past one is that token. -/
theorem eq_of_past {t u : Token} (h : past t = .expect u) : t = u := by
  cases t <;> cases h <;> rfl

end Move

namespace Cursor

variable {c c' : Cursor} {t : Token} {u : Unit} {e : Error}

/-- Goes past the current token by the move that the grammar has for it. No rule is written with
this: that the rules move so is shown of each of them. -/
def pass : Parse Unit := fun c => (Move.past c.current).run c

/-- **Going past a token is reporting it, if its move does, and taking the next one.** -/
theorem pass_eq_fetch (c : Cursor) :
    pass c = fetch { c with log := (Move.past c.current).records ++ c.log } := by
  rw [pass]
  cases hm : Move.past c.current with
  | advance => rfl
  | expect t =>
    have hc := Move.eq_of_past hm
    show expect t c = _
    rw [expect_eq, if_pos hc]
    rfl

theorem pass_eq_advance (h : Move.past c.current = .advance) : pass c = advance c := by
  rw [pass, h]
  rfl

theorem pass_eq_expect (ht : Move.past t = .expect t) (hc : c.current = t) :
    pass c = expect t c := by
  rw [pass, hc, ht]
  rfl

/-- Where a token is expected that the grammar expects. -/
theorem expect_eq_ok (ht : Move.past t = .expect t) :
    expect t c = .ok u c' ↔ c.current = t ∧ pass c = .ok u c' := by
  by_cases hc : c.current = t
  · simp [hc, pass_eq_expect ht hc]
  · simp [hc, expect_eq]

theorem expect_eq_error (ht : Move.past t = .expect t) : expect t c = .error e c' ↔
    (c.current ≠ t ∧ e = .parse (.mismatch t c.current) ∧ c = c') ∨
      (c.current = t ∧ pass c = .error e c') := by
  by_cases hc : c.current = t
  · simp [hc, pass_eq_expect ht hc]
  · simp [hc, expect_eq, eq_comm]

theorem ahead_of_pass (h : pass c = .ok u c') : c'.ahead = c.lexer.drain := by
  rw [pass_eq_fetch] at h
  exact (ahead_of_fetch h :)

theorem drain_of_pass_error (h : pass c = .error e c') :
    ∃ le, e = .lexical le ∧ c.lexer.drain = ([], some le) := by
  rw [pass_eq_fetch] at h
  exact (drain_of_fetch_error h :)

/-- Going past some tokens, one after another. -/
inductive Passes : Cursor → List Token → Cursor → Prop
  | refl (c : Cursor) : Passes c [] c
  | step {c c₁ c' : Cursor} {ts : List Token} :
      pass c = .ok () c₁ → Passes c₁ ts c' → Passes c (c.current :: ts) c'

theorem Passes.single (ht : c.current = t) (h : pass c = .ok u c') : Passes c [t] c' :=
  ht ▸ .step h (.refl c')

theorem Passes.trans {c c₁ c' : Cursor} {ts us : List Token} (h : Passes c ts c₁)
    (h' : Passes c₁ us c') : Passes c (ts ++ us) c' := by
  induction h with
  | refl c => exact h'
  | step ha _ ih => exact .step ha (ih h')

theorem Passes.ahead_eq {c c' : Cursor} {ts : List Token} (h : Passes c ts c')
    (ht : .eof ∉ ts) : c.ahead = (ts ++ c'.ahead.1, c'.ahead.2) := by
  induction h with
  | refl c => rfl
  | @step c c₁ c' ts ha _ ih =>
    rw [List.mem_cons, not_or] at ht
    rw [ahead_of_ne (Ne.symm ht.1), ← ahead_of_pass ha, ih ht.2]
    rfl

end Cursor

end Calculator
