import Calculator.Error
import Calculator.Reader
import Calculator.Text.Blank

/-!
# The lexer

A lexer cuts the bytes of a reader into tokens, one at a time and on demand. It looks one
character too far only after a literal, and then keeps that character for the next call, so
after every call it has taken no more of the input than it needed.

A failed read is an error like any other: what was already taken of an unfinished literal or
character is lost, and the next call goes on with the read after it.

**Theorem (`Lexer.size_of_next`).** A call never makes the input larger, and one that gives a
token other than `eof` makes it smaller.
-/

namespace Calculator

structure Lexer where
  reader : Reader
  /-- The character that ended the last literal. -/
  pushback : Option Char := none
  /-- Whether the end of the input was met. After that the reader is left alone. -/
  finished : Bool := false
deriving DecidableEq

/-- The number that decimal digits spell. -/
def numeralValue (digits : List Char) : Nat :=
  digits.foldl (fun n c => 10 * n + (c.toNat - 48)) 0

/-- The token of a literal. -/
def literalToken (digits : List Char) : Except LexicalError Token :=
  match Value.ofInt? (numeralValue digits) with
  | some v => .ok (.number v)
  | none => .error (.literalTooLarge (String.ofList digits))

namespace Lexer

/-- How many bytes and kept characters are ahead. -/
def size (l : Lexer) : Nat := l.reader.size + l.pushback.toList.length

/-! ## Characters -/

/-- The character of a group of bytes, once `missing` more bytes of it are read. An input that
ends before makes it the replacement character. -/
def readGroup (group : List UInt8) (missing : Nat) (l : Lexer) :
    EStateM.Result LexicalError Lexer (Option Char) :=
  match missing with
  | 0 => .ok (some (Utf8.decode group)) l
  | missing + 1 =>
    match l.reader.next with
    | .error reason r => .error (.readFailure reason) { l with reader := r }
    | .ok none r => .ok (some Utf8.replacement) { l with reader := r, finished := true }
    | .ok (some b) r => readGroup (group ++ [b]) missing { l with reader := r }

/-- The next character, or `none` at the end of the input. -/
def readChar (l : Lexer) : EStateM.Result LexicalError Lexer (Option Char) :=
  match l.pushback with
  | some c => .ok (some c) { l with pushback := none }
  | none =>
    if l.finished then .ok none l
    else
      match l.reader.next with
      | .error reason r => .error (.readFailure reason) { l with reader := r }
      | .ok none r => .ok none { l with reader := r, finished := true }
      | .ok (some b) r => readGroup [b] (Utf8.following b) { l with reader := r }

theorem size_of_readGroup {group : List UInt8} {missing : Nat} {l l' : Lexer} {c : Option Char}
    (h : readGroup group missing l = .ok c l') : l'.size ≤ l.size := by
  fun_induction readGroup group missing l with
  | case1 group l => cases h; exact Nat.le_refl _
  | case2 group l missing reason r hr => cases h
  | case3 group l missing r hr =>
    cases h
    have := Reader.size_of_next hr
    simp only [size, Option.toList_none, List.length_nil] at *
    omega
  | case4 group l missing b r hr ih =>
    have := ih h
    have := Reader.size_of_next hr
    simp only [size] at *
    omega

theorem size_of_readChar {l l' : Lexer} {c : Option Char} (h : l.readChar = .ok c l') :
    l'.size + c.toList.length ≤ l.size := by
  unfold readChar at h
  split at h
  · next c hc => cases h; simp [size, hc]
  · next hn =>
    split at h
    · cases h; simp
    · split at h
      · cases h
      · next r hr =>
        cases h
        have := Reader.size_of_next hr
        simp only [size, Option.toList_none, List.length_nil] at *
        omega
      · next b r hr =>
        have := Reader.size_of_next hr
        have := size_of_readGroup h
        have : c.toList.length ≤ 1 := by cases c <;> simp
        simp only [size, Option.toList_some, List.length_singleton] at *
        omega

theorem size_of_readChar_some {l l' : Lexer} {c : Char} (h : l.readChar = .ok (some c) l') :
    l'.size < l.size :=
  size_of_readChar h

/-! ## Tokens -/

/-- The digits of a literal, given those already read, the latest one first. -/
def readDigits (digits : List Char) (l : Lexer) : EStateM.Result LexicalError Lexer (List Char) :=
  match _h : l.readChar with
  | .error e l' => .error e l'
  | .ok none l' => .ok digits.reverse l'
  | .ok (some c) l' =>
    if c.isDigit then readDigits (c :: digits) l'
    else .ok digits.reverse { l' with pushback := some c }
termination_by l.size
decreasing_by exact size_of_readChar_some _h

/-- The next token. -/
def next (l : Lexer) : EStateM.Result LexicalError Lexer Token :=
  match _h : l.readChar with
  | .error e l' => .error e l'
  | .ok none l' => .ok .eof l'
  | .ok (some c) l' =>
    if isBlank c then l'.next
    else if c.isDigit then
      match readDigits [c] l' with
      | .error e l'' => .error e l''
      | .ok digits l'' =>
        match literalToken digits with
        | .error e => .error e l''
        | .ok t => .ok t l''
    else
      match Token.ofPunctuation? c with
      | some t => .ok t l'
      | none => .error (.invalidCharacter c) l'
termination_by l.size
decreasing_by exact size_of_readChar_some _h

theorem size_of_readDigits {digits ds : List Char} {l l' : Lexer}
    (h : readDigits digits l = .ok ds l') : l'.size ≤ l.size := by
  fun_induction readDigits digits l with
  | case1 digits l e l₁ hc => cases h
  | case2 digits l l₁ hc =>
    cases h
    simpa using size_of_readChar hc
  | case3 digits l c l₁ hc hd ih =>
    have := ih h
    have := size_of_readChar_some hc
    omega
  | case4 digits l c l₁ hc hd =>
    cases h
    have := size_of_readChar_some hc
    simp only [size, Option.toList_some, List.length_singleton] at *
    omega

/-- A call never makes the input larger, and a token other than `eof` takes some of it. -/
theorem size_of_next {l l' : Lexer} {t : Token} (h : l.next = .ok t l') :
    l'.size ≤ l.size ∧ (t ≠ .eof → l'.size < l.size) := by
  fun_induction next l with
  | case1 l e l₁ hc => cases h
  | case2 l l₁ hc =>
    cases h
    exact ⟨by simpa using size_of_readChar hc, fun hne => absurd rfl hne⟩
  | case3 l c l₁ hc hb ih =>
    have := ih h
    have := size_of_readChar_some hc
    exact ⟨by omega, fun _ => by omega⟩
  | case4 l c l₁ hc hb hd e l₂ hr => cases h
  | case5 l c l₁ hc hb hd ds l₂ hr e hl => cases h
  | case6 l c l₁ hc hb hd ds l₂ hr u hl =>
    cases h
    have := size_of_readDigits hr
    have := size_of_readChar_some hc
    exact ⟨by omega, fun _ => by omega⟩
  | case7 l c l₁ hc hb hd u hp =>
    cases h
    have := size_of_readChar_some hc
    exact ⟨by omega, fun _ => by omega⟩
  | case8 l c l₁ hc hb hd hp => cases h

/-! ## All tokens of an input -/

/-- One item of the lexer's token sequence: the next token, or `none` once the input has ended.
The sequence ends with the first error, so one finishes the lexer. -/
def item (l : Lexer) : Option (Except LexicalError Token) × Lexer :=
  if l.finished && l.pushback.isNone then (none, l)
  else
    match l.next with
    | .ok .eof l' => (none, l')
    | .ok t l' => (some (.ok t), l')
    | .error e l' => (some (.error e), { l' with pushback := none, finished := true })

theorem size_of_item {l l' : Lexer} {t : Token} (h : l.item = (some (.ok t), l')) :
    l'.size < l.size := by
  unfold item at h
  split at h
  · cases h
  · split at h
    · cases h
    · next t' l'' hne hn =>
      cases h
      exact (size_of_next hn).2 (fun he => hne he)
    · cases h

/-- Drains a lexer that has already given some tokens, the latest one first. -/
def drainAfter (before : List Token) (l : Lexer) : List Token × Option LexicalError :=
  match _h : l.item with
  | (none, _) => (before.reverse, none)
  | (some (.error e), _) => (before.reverse, some e)
  | (some (.ok t), l') => l'.drainAfter (t :: before)
termination_by l.size
decreasing_by exact size_of_item _h

/-- The tokens up to the end of the input or the first error, and that error. -/
def drain (l : Lexer) : List Token × Option LexicalError := drainAfter [] l

end Lexer

/-- The tokens of a text, or the first error in it. -/
def tokenize (text : String) : Except LexicalError (List Token) :=
  match Lexer.drain { reader := .ofString text } with
  | (tokens, none) => .ok tokens
  | (_, some e) => .error e

end Calculator
