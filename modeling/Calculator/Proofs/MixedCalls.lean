import Calculator.Proofs.Locality
import Mathlib.Control.Monad.Basic

/-!
# Calls to a lexer

A lexer is asked for its next token, or for the next item of its token sequence, in any order. Both
kinds of calls share one state: the feed, and the character that was kept back.

**Theorem (`Lexer.mixed_calls`).** In every state that calls lead to, an item is the token that
would be given there, or nothing at the end. After the end, and after an item that is an error, the
lexer is spent: it answers as at the end and reads nothing more. An error where a token was asked
for leaves it usable, unless the input had ended.

The last part needs the history of the lexer. Calls lead to a spent lexer or to one whose feed is
what the events taken so far have left, and only the report of the end finishes a feed.
-/

namespace Calculator

open Fed

/-- The two ways to ask a lexer. -/
inductive Call where
  /-- For the next token. -/
  | token
  /-- For the next item of the token sequence. -/
  | item
deriving DecidableEq

/-- What a call is answered. Only an item may be missing. -/
abbrev Answer := Option (Except LexicalError Token)

namespace Call

/-- The answer where the next token is given. There is no item in place of `eof`. -/
def answer (t : Token) : Call → Answer
  | .token => some (.ok t)
  | .item => if t = .eof then none else some (.ok t)

/-- The answers after which nothing more is to come. -/
def Ends : Call → Answer → Prop
  | .token, a => a = some (.ok .eof)
  | .item, a => a = none ∨ ∃ e, a = some (.error e)

theorem eq_eof_of_ends {c : Call} {t : Token} (h : c.Ends (c.answer t)) : t = .eof := by
  cases c with
  | token =>
    cases h
    rfl
  | item =>
    by_cases ht : t = .eof
    · exact ht
    · rw [answer, if_neg ht] at h
      rcases h with h | ⟨e, h⟩ <;> cases h

end Call

namespace Lexer

/-- The answer to a call, and the lexer after it. -/
def call (l : Lexer) : Call → Answer × Lexer
  | .token =>
    match l.next with
    | .ok t l' => (some (.ok t), l')
    | .error e l' => (some (.error e), l')
  | .item => l.item

/-- The answers to calls that are made one after another, and the lexer after them. -/
def calls (l : Lexer) : List Call → List Answer × Lexer
  | [] => ([], l)
  | c :: cs => ((l.call c).1 :: ((l.call c).2.calls cs).1, ((l.call c).2.calls cs).2)

/-- Every later call is answered as at the end, and nothing more is read. -/
def Spent (l : Lexer) : Prop := ∀ cs, l.calls cs = (cs.map (Call.answer .eof), l)

variable {l l' : Lexer} {t : Token} {e : LexicalError}

/-! ## Items and tokens -/

theorem next_eq_eof (h : l.next = .ok .eof l') : l'.finished = true ∧ l'.pushback = none := by
  fun_induction next l with
  | case1 l e l₁ hc => cases h
  | case2 l l₁ hc =>
    cases h
    obtain ⟨hp, hf⟩ := readChar_eq_ok hc
    exact ⟨hf rfl, hp⟩
  | case3 l c l₁ hc hb ih => exact ih h
  | case4 l c l₁ hc hb hd e l₂ hr => cases h
  | case5 l c l₁ hc hb hd ds l₂ hr e hl => cases h
  | case6 l c l₁ hc hb hd ds l₂ hr u hl =>
    cases h
    unfold literalToken at hl
    split at hl <;> cases hl
  | case7 l c l₁ hc hb hd u hp =>
    cases h
    unfold Token.ofPunctuation? at hp
    split at hp <;> cases hp
  | case8 l c l₁ hc hb hd hp => cases h

/-- An item is the token that would be given, and leaves the same lexer. -/
theorem item_of_ok (h : l.next = .ok t l') :
    l.item = (if t = .eof then none else some (.ok t), l') := by
  by_cases ht : t = .eof
  · subst ht
    rw [if_pos rfl]
    unfold item
    split
    · next hd =>
      -- The early end hides nothing: a call for a token would not move either.
      rw [Bool.and_eq_true, Option.isNone_iff_eq_none] at hd
      rw [next_of_finished hd.1 hd.2] at h
      cases h
      rfl
    · rw [h]
  · rw [if_neg ht]
    exact item_of_token h ht

theorem item_of_failed (h : l.next = .error e l') :
    l.item = (some (.error e), { l' with pushback := none, finished := true }) := by
  unfold item
  split
  · next hd =>
    rw [Bool.and_eq_true, Option.isNone_iff_eq_none] at hd
    rw [next_of_finished hd.1 hd.2] at h
    cases h
  · rw [h]

theorem call_of_ok (h : l.next = .ok t l') (c : Call) : l.call c = (c.answer t, l') := by
  cases c with
  | token => rw [call, h]; rfl
  | item => exact item_of_ok h

theorem call_token_of_error (h : l.next = .error e l') :
    l.call .token = (some (.error e), l') := by
  rw [call, h]

/-! ## Spent lexers -/

theorem spent_iff : l.Spent ↔ l.finished = true ∧ l.pushback = none := by
  constructor
  · intro h
    have hc : l.call .token = (some (.ok .eof), l) := by
      have hcs := h [.token]
      simp only [calls, List.map_cons, List.map_nil, Prod.mk.injEq, List.cons.injEq] at hcs
      exact Prod.ext hcs.1.1 hcs.2
    cases hn : l.next with
    | ok t l' =>
      rw [call_of_ok hn] at hc
      cases hc
      exact next_eq_eof hn
    | error e l' =>
      rw [call_token_of_error hn] at hc
      cases hc
  · rintro ⟨hf, hp⟩ cs
    induction cs with
    | nil => rfl
    | cons c cs ih => rw [calls, call_of_ok (next_of_finished hf hp), ih]; rfl

/-- **An answer after which nothing more is to come leaves a spent lexer.** -/
theorem spent_of_ends {c : Call} (h : c.Ends (l.call c).1) : (l.call c).2.Spent := by
  rw [spent_iff]
  cases hn : l.next with
  | ok t l' =>
    rw [call_of_ok hn] at h ⊢
    cases Call.eq_eof_of_ends h
    exact next_eq_eof hn
  | error e l' =>
    cases c with
    | token =>
      rw [call_token_of_error hn] at h
      cases h
    | item =>
      rw [call, item_of_failed hn]
      exact ⟨rfl, rfl⟩

/-! ## The history of a lexer -/

/-- The lexer's feed is what a reader has left after some events. -/
def ReadFrom (script : Reader) (l : Lexer) : Prop :=
  ∃ es, Feed.Gives ⟨script, false⟩ es (feed l)

theorem ReadFrom.next {script : Reader} (h : ReadFrom script l) :
    ReadFrom script (stateOf l.next) := by
  obtain ⟨es, hes⟩ := h
  obtain ⟨es', hes', -⟩ := local_next l
  exact ⟨es ++ es', hes.trans hes'⟩

/-- One call keeps what taking a token keeps, or leaves a spent lexer. -/
theorem spent_or_call {P : Lexer → Prop} (hP : ∀ l, P l → P (stateOf l.next)) (h : P l)
    (c : Call) : (l.call c).2.Spent ∨ P (l.call c).2 := by
  have hnext := hP l h
  cases hn : l.next with
  | ok t l' =>
    rw [hn] at hnext
    rw [call_of_ok hn]
    exact .inr hnext
  | error e l' =>
    rw [hn] at hnext
    cases c with
    | token =>
      rw [call_token_of_error hn]
      exact .inr hnext
    | item =>
      rw [call, item_of_failed hn, spent_iff]
      exact .inl ⟨rfl, rfl⟩

theorem spent_or_calls {P : Lexer → Prop} (hP : ∀ l, P l → P (stateOf l.next)) (cs : List Call)
    (h : l.Spent ∨ P l) : (l.calls cs).2.Spent ∨ P (l.calls cs).2 := by
  induction cs generalizing l with
  | nil => exact h
  | cons c cs ih =>
    rcases h with h | h
    · exact .inl (by rw [h]; exact h)
    · exact ih (spent_or_call hP h c)

end Lexer

/-- The input has ended, and this is left of it: after some events, the end was reported. -/
def Reader.EndedAt (script r : Reader) : Prop :=
  ∃ es, .ended ∈ es ∧ Feed.Gives ⟨script, false⟩ es ⟨r, true⟩

namespace Lexer

/-- Some calls lead from a new lexer to this one. -/
def Reachable (script : Reader) (l : Lexer) : Prop :=
  ∃ cs, (calls { reader := script } cs).2 = l

/-- **What a new lexer has and taking a token keeps**, every lexer has that calls lead to, unless it
is spent. -/
theorem Reachable.spent_or {script : Reader} {l : Lexer} {P : Lexer → Prop} (h : l.Reachable script)
    (hnew : P { reader := script }) (hP : ∀ l, P l → P (stateOf l.next)) : l.Spent ∨ P l := by
  obtain ⟨cs, rfl⟩ := h
  exact spent_or_calls hP cs (.inr hnew)

/-- A call for a token fails and leaves a spent lexer only if the input has ended. -/
theorem Reachable.endedAt {script : Reader} {l l' : Lexer} {e : LexicalError}
    (h : l.Reachable script) (hn : l.next = .error e l') (hs : l'.Spent) :
    script.EndedAt l'.reader := by
  have hnew : ReadFrom script { reader := script } := ⟨[], .refl _⟩
  rcases h.spent_or hnew fun _ => ReadFrom.next with h | h
  · -- A spent lexer does not fail.
    obtain ⟨hf, hp⟩ := spent_iff.1 h
    rw [next_of_finished hf hp] at hn
    cases hn
  · obtain ⟨es, hes⟩ := h.next
    rw [hn] at hes
    change Feed.Gives _ es ⟨l'.reader, l'.finished⟩ at hes
    rw [(spent_iff.1 hs).1] at hes
    exact ⟨es, by simpa using hes.finished_eq, hes⟩

/-- **A lexer under mixed calls.** In every state that calls lead to, an item is the token that
would be given, or missing instead of `eof`, and leaves the same state unless it is an error. After
`eof`, a missing item or an item that is an error, every later call is answered as at the end and
nothing more is read. An error where a token was asked for does not lead there unless the input had
ended. -/
theorem mixed_calls {script : Reader} {l : Lexer} (h : l.Reachable script) :
    ((∀ t, (l.call .token).1 = some (.ok t) →
        l.call .item = (if t = .eof then none else some (.ok t), (l.call .token).2)) ∧
      ∀ e, (l.call .token).1 = some (.error e) → (l.call .item).1 = some (.error e)) ∧
    (∀ c, c.Ends (l.call c).1 → (l.call c).2.Spent) ∧
    ∀ e, (l.call .token).1 = some (.error e) → (l.call .token).2.Spent →
      script.EndedAt (l.call .token).2.reader := by
  refine ⟨?_, fun c => spent_of_ends, ?_⟩
  · cases hn : l.next with
    | ok t l' =>
      rw [call_of_ok hn, call_of_ok hn]
      refine ⟨?_, nofun⟩
      rintro _ ⟨⟩
      rfl
    | error e l' =>
      rw [call_token_of_error hn, call, item_of_failed hn]
      refine ⟨nofun, ?_⟩
      rintro _ ⟨⟩
      rfl
  · intro e he hs
    cases hn : l.next with
    | ok t l' =>
      rw [call_of_ok hn] at he
      cases he
    | error e' l' =>
      rw [call_token_of_error hn] at hs ⊢
      exact h.endedAt hn hs

/-- After `1` and the first byte of a longer character the input ends, with another read to come.
The replacement of that character is still given as an error, and then nothing is. -/
theorem mixed_calls_truncated :
    let script : Reader := ⟨[], [.bytes [0x31, 0xe2], .bytes [], .bytes [0x32]]⟩
    let l : Lexer := ⟨⟨[], [.bytes [0x32]]⟩, some Utf8.replacement, true⟩
    l.Reachable script ∧
      (l.call .token).1 = some (.error (.invalidCharacter Utf8.replacement)) ∧
      (l.call .item).1 = some (.error (.invalidCharacter Utf8.replacement)) ∧
      (l.call .item).2.Spent ∧ script.EndedAt (l.call .token).2.reader := by
  intro script l
  have hl : l.Reachable script := ⟨[.token], by decide +kernel⟩
  have ht : (l.call .token).1 = some (.error (.invalidCharacter Utf8.replacement)) := by
    decide +kernel
  have hs : (l.call .token).2.finished = true ∧ (l.call .token).2.pushback = none := by
    decide +kernel
  obtain ⟨⟨-, hitem⟩, hends, hended⟩ := mixed_calls hl
  exact ⟨hl, ht, hitem _ ht, hends .item (.inr ⟨_, hitem _ ht⟩), hended _ ht (spent_iff.2 hs)⟩

end Lexer

end Calculator
