import Calculator.Lexer
import Calculator.Log

/-!
# Cursors

A parser looks at one token at a time. Its cursor holds that token, the lexer that gives the
ones after it, and the log of the run so far.

There are two ways to go past a token. `Cursor.advance` takes whatever is there and says nothing;
`Cursor.expect` insists on a token and reports it before the next one is taken. Which of them it is
depends on who asks and not on the token.

**Theorem (`Cursor.size_of_advance`).** Going past a token leaves no more ahead than before,
and less if the token was not `eof`.
-/

namespace Calculator

structure Cursor where
  current : Token
  lexer : Lexer
  /-- What the run reported so far, the latest record first. -/
  log : List Record

/-- A step of a parser. One that fails still says where the cursor was by then. -/
abbrev Parse := EStateM Error Cursor

theorem Parse.bind_eq_ok {α β : Type} {x : Parse α} {f : α → Parse β} {c c'' : Cursor} {b : β} :
    (x >>= f) c = .ok b c'' ↔ ∃ a c', x c = .ok a c' ∧ f a c' = .ok b c'' := by
  show EStateM.bind x f c = .ok b c'' ↔ _
  unfold EStateM.bind
  cases hx : x c with
  | ok a c' =>
    constructor
    · exact fun h => ⟨a, c', rfl, h⟩
    · rintro ⟨_, _, ⟨⟩, h⟩
      exact h
  | error e c' => simp

theorem Parse.pure_eq_ok {α : Type} {a b : α} {c c' : Cursor} :
    (pure a : Parse α) c = .ok b c' ↔ a = b ∧ c = c' := by
  show EStateM.Result.ok a c = .ok b c' ↔ _
  simp

theorem Parse.get_bind {α : Type} (f : Cursor → Parse α) (c : Cursor) :
    (get >>= f) c = f c c := rfl

namespace Cursor

/-- The cursor before the first token of an input. -/
def start (source : Reader) : Cursor := ⟨.eof, { reader := source }, []⟩

/-- How much is ahead, the current token included. -/
def size (c : Cursor) : Nat := c.lexer.size + if c.current = .eof then 0 else 1

/-- Takes the next token from the lexer. -/
def fetch : Parse Unit := fun c =>
  match c.lexer.next with
  | .ok t l => .ok () { current := t, lexer := l, log := .lexed t :: c.log }
  | .error e l => .error (.lexical e) { c with lexer := l }

def report (r : Record) : Parse Unit := modify fun c => { c with log := r :: c.log }

/-- Goes past the current token, whatever it is. -/
def advance : Parse Unit := fetch

/-- Insists on a token without going past it. -/
def require (t : Token) : Parse Unit := do
  let found := (← get).current
  if found ≠ t then throw (.parse (.mismatch t found))

/-- Goes past a token that has to be there, and reports it. -/
def expect (t : Token) : Parse Unit := do
  require t
  report (.matched t)
  advance

/-! ## What is ahead -/

theorem size_of_fetch {c c' : Cursor} {u : Unit} (h : fetch c = .ok u c') :
    c'.size ≤ c.lexer.size := by
  unfold fetch at h
  split at h
  · next t l hn =>
    cases h
    obtain ⟨hle, hlt⟩ := Lexer.size_of_next hn
    unfold size
    split
    · exact hle
    · next hne => exact hlt hne
  · cases h

theorem size_of_advance {c c' : Cursor} {u : Unit} (h : advance c = .ok u c') :
    c'.size ≤ c.size ∧ (c.current ≠ .eof → c'.size < c.size) := by
  have hle := size_of_fetch h
  refine ⟨Nat.le_trans hle (Nat.le_add_right _ _), fun hne => ?_⟩
  have : c.size = c.lexer.size + 1 := by rw [size, if_neg hne]
  omega

theorem require_eq_ok {t : Token} {c c' : Cursor} {u : Unit} :
    require t c = .ok u c' ↔ c.current = t ∧ c = c' := by
  rw [require, Parse.get_bind]
  by_cases hc : c.current = t
  · rw [if_neg (not_not_intro hc), Parse.pure_eq_ok]
    simp [hc]
  · rw [if_pos hc]
    exact ⟨nofun, fun h => absurd h.1 hc⟩

/-- Expecting a token is reporting it and taking the next one, if it is there. -/
theorem expect_eq (t : Token) (c : Cursor) : expect t c =
    if c.current = t then fetch { c with log := .matched t :: c.log }
    else .error (.parse (.mismatch t c.current)) c := by
  show EStateM.bind (require t) _ c = _
  rw [EStateM.bind, require, Parse.get_bind]
  by_cases hc : c.current = t
  · rw [if_neg (not_not_intro hc), if_pos hc]
    rfl
  · rw [if_pos hc, if_neg hc]
    rfl

theorem size_of_expect {t : Token} {c c' : Cursor} {u : Unit} (h : expect t c = .ok u c') :
    c'.size ≤ c.size := by
  rw [expect_eq] at h
  by_cases hc : c.current = t
  · rw [if_pos hc] at h
    exact Nat.le_trans (size_of_fetch h) (Nat.le_add_right _ _)
  · rw [if_neg hc] at h
    cases h

end Cursor

/-- The two ways to go past a token, for a loop that is told which one to use. -/
inductive Move where
  | advance
  | expect (t : Token)
deriving DecidableEq

namespace Move

def run : Move → Parse Unit
  | .advance => Cursor.advance
  | .expect t => Cursor.expect t

theorem size_of_run {move : Move} {c c' : Cursor} {u : Unit} (h : move.run c = .ok u c') :
    c'.size ≤ c.size := by
  cases move with
  | advance => exact (Cursor.size_of_advance h).1
  | expect t => exact Cursor.size_of_expect h

end Move

end Calculator
