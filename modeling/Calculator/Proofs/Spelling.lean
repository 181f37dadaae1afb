import Calculator.Proofs.Characters
import Calculator.Proofs.Shape
import Calculator.Tree.Text

/-!
# Tokens in a text

The text of a tree is the text of its tokens, one after another: `Token.spelling` holds a token
together with the blanks that a tree puts around it.

**Theorem (`Program.toList_text`).** The text of a program spells its tokens and a stop.

**Theorem (`Lexer.drain_of_spelling`).** Lexing the spelling of a token gives the token back. A
literal needs something else than a digit after it, and a negative one is not read back at all: the
lexer knows no sign, so its `-` comes first, as a token of its own.
-/

namespace Calculator

/-! ## Decimal digits -/

theorem numeralValue_toDigits (n : Nat) : numeralValue (Nat.toDigits 10 n) = n :=
  Nat.ofDigitChars_ten_toDigits

theorem numeralValue_zeros (zeros : Nat) (digits : List Char) :
    numeralValue (List.replicate zeros '0' ++ digits) = numeralValue digits := by
  induction zeros with
  | zero => rfl
  | succ zeros ih => exact ih

namespace Value

theorem toList_text_of_nonneg {v : Value} (h : 0 ≤ v.toInt) :
    v.text.toList = Nat.toDigits 10 v.toInt.toNat := by
  rw [text, Int.toString_eq_repr, Int.repr_eq_if, if_pos h, Nat.toList_repr]

theorem toList_text_of_neg {v : Value} (h : v.toInt < 0) :
    v.text.toList = '-' :: Nat.toDigits 10 (-v.toInt).toNat := by
  rw [text, Int.toString_eq_repr, Int.repr_eq_if, if_neg (Int.not_le.2 h), String.toList_append,
    Nat.toList_repr]
  rfl

/-- A value is written with digits and a sign only. -/
theorem not_mem_text {c : Char} (hd : c.isDigit = false) (hs : c ≠ '-') (v : Value) :
    c ∉ v.text.toList := by
  have hdigits (n : Nat) : c ∉ Nat.toDigits 10 n := by
    intro hc
    rw [Nat.isDigit_of_mem_toDigits (by decide) (by decide) hc] at hd
    cases hd
  by_cases hv : 0 ≤ v.toInt
  · rw [toList_text_of_nonneg hv]
    exact hdigits _
  · rw [toList_text_of_neg (Int.not_le.1 hv), List.mem_cons, not_or]
    exact ⟨hs, hdigits _⟩

/-- The number and its sign can be read off the text of a value. -/
theorem text_injective : Function.Injective Value.text := by
  have hsign (n : Nat) (ds : List Char) : Nat.toDigits 10 n ≠ '-' :: ds := by
    intro h
    have hdash : '-' ∈ Nat.toDigits 10 n := h ▸ List.mem_cons_self
    exact nomatch Nat.isDigit_of_mem_toDigits (by decide) (by decide) hdash
  have hdigits {m n : Nat} (h : Nat.toDigits 10 m = Nat.toDigits 10 n) : m = n := by
    have hvalue := congrArg numeralValue h
    rwa [numeralValue_toDigits, numeralValue_toDigits] at hvalue
  intro v w h
  have hlist : v.text.toList = w.text.toList := congrArg String.toList h
  apply Value.ext
  rcases Int.lt_or_le v.toInt 0 with hv | hv
  · rw [toList_text_of_neg hv] at hlist
    rcases Int.lt_or_le w.toInt 0 with hw | hw
    · rw [toList_text_of_neg hw] at hlist
      have := hdigits (List.cons.inj hlist).2
      omega
    · rw [toList_text_of_nonneg hw] at hlist
      exact absurd hlist.symm (hsign _ _)
  · rw [toList_text_of_nonneg hv] at hlist
    rcases Int.lt_or_le w.toInt 0 with hw | hw
    · rw [toList_text_of_neg hw] at hlist
      exact absurd hlist (hsign _ _)
    · rw [toList_text_of_nonneg hw] at hlist
      have := hdigits hlist
      omega

theorem toList_text_ne_nil (v : Value) : v.text.toList ≠ [] := by
  rcases Int.lt_or_le v.toInt 0 with hv | hv
  · rw [toList_text_of_neg hv]
    exact List.cons_ne_nil _ _
  · rw [toList_text_of_nonneg hv]
    exact Nat.toDigits_ne_nil

/-- The characters that values are written with. -/
def isFigure (c : Char) : Bool := c.isDigit || c == '-'

theorem isFigure_of_mem_text {v : Value} {c : Char} (h : c ∈ v.text.toList) :
    isFigure c = true := by
  by_cases hd : c.isDigit = true
  · simp [isFigure, hd]
  · by_cases hs : c = '-'
    · simp [isFigure, hs]
    · exact absurd h (v.not_mem_text (by simpa using hd) hs)

/-- A value ends where the first character is that is no part of one. -/
theorem takeWhile_text (v : Value) {rest : List Char}
    (hr : ∀ c ∈ rest.head?, isFigure c = false) :
    (v.text.toList ++ rest).takeWhile isFigure = v.text.toList := by
  rw [List.takeWhile_append_of_pos fun c => isFigure_of_mem_text]
  cases rest with
  | nil => exact List.append_nil _
  | cons c rest => rw [List.takeWhile_cons_of_neg (by simp [hr c rfl]), List.append_nil]

/-- **Values are told apart in any text**, if no further figure follows. -/
theorem text_append_inj {v w : Value} {rest rest' : List Char}
    (hr : ∀ c ∈ rest.head?, isFigure c = false) (hr' : ∀ c ∈ rest'.head?, isFigure c = false)
    (h : v.text.toList ++ rest = w.text.toList ++ rest') : v = w ∧ rest = rest' := by
  have htext := congrArg (List.takeWhile isFigure) h
  rw [v.takeWhile_text hr, w.takeWhile_text hr'] at htext
  refine ⟨text_injective (String.ext htext), ?_⟩
  rw [htext] at h
  exact List.append_cancel_left h

end Value

/-! ## The text of a tree -/

/-- A token as a tree writes it, with the blanks around it. -/
def Token.spelling : Token → List Char
  | .number v => v.text.toList
  | .plus => [' ', '+', ' ']
  | .minus => [' ', '-', ' ']
  | .times => [' ', '*', ' ']
  | .slash => [' ', '/', ' ']
  | .caret => [' ', '^', ' ']
  | .leftParen => ['(']
  | .rightParen => [')']
  | .bar => ['|']
  | .semicolon => [';', ' ']
  | .stop => ['.']
  | .eof => []

theorem MulOp.spelling_token (o : MulOp) :
    o.token.spelling = ' ' :: (o.toOperator.symbol.toList ++ [' ']) := by
  cases o <;> decide

theorem AddOp.spelling_token (o : AddOp) :
    o.token.spelling = ' ' :: (o.toOperator.symbol.toList ++ [' ']) := by
  cases o <;> decide

mutual

theorem Factor.toList_write : ∀ (before : String) (f : Factor),
    (f.write before).toList = before.toList ++ f.tokens.flatMap Token.spelling
  | before, .number v => by simp [Factor.write, Factor.tokens, Token.spelling]
  | before, .group e => by
    simp [Factor.write, Factor.tokens, Token.spelling, Expr.toList_write _ e]
  | before, .bars e => by
    simp [Factor.write, Factor.tokens, Token.spelling, Expr.toList_write _ e]
  | before, .power b p => by
    simp [Factor.write, Factor.tokens, Token.spelling, Factor.toList_write _ b,
      Factor.toList_write _ p]

theorem Term.toList_write : ∀ (before : String) (t : Term),
    (t.write before).toList = before.toList ++ t.tokens.flatMap Token.spelling
  | before, .single f => by rw [Term.write, Term.tokens, Factor.toList_write]
  | before, .cons f o rest => by
    simp [Term.write, Term.tokens, MulOp.spelling_token, Factor.toList_write _ f,
      Term.toList_write _ rest]

theorem Expr.toList_write : ∀ (before : String) (e : Expr),
    (e.write before).toList = before.toList ++ e.tokens.flatMap Token.spelling
  | before, .single t => by rw [Expr.write, Expr.tokens, Term.toList_write]
  | before, .cons t o rest => by
    simp [Expr.write, Expr.tokens, AddOp.spelling_token, Term.toList_write _ t,
      Expr.toList_write _ rest]

end

theorem Program.toList_write (before : String) (p : Program) :
    (p.write before).toList = before.toList ++ (p.tokens.flatMap Token.spelling ++ ['.']) := by
  induction p generalizing before with
  | single e => simp [Program.write, Program.tokens, Expr.toList_write]
  | cons e o rest ih => simp [Program.write, Program.tokens, Token.spelling, Expr.toList_write, ih]

/-- **The text of a program spells its tokens.** -/
theorem Program.toList_text (p : Program) :
    p.text.toList = p.tokens.flatMap Token.spelling ++ ['.'] :=
  p.toList_write ""

/-! ## Lexing a spelling -/

namespace Lexer

/-- A literal may begin with zeros. -/
theorem drain_of_number (zeros : Nat) {l : Lexer} {v : Value} {rest : List Char}
    (h : Spells l (List.replicate zeros '0' ++ v.text.toList ++ rest)) (hv : 0 ≤ v.toInt)
    (hr : ∀ c ∈ rest.head?, c.isDigit = false) :
    ∃ l', Spells l' rest ∧ l.drain = (.number v :: l'.drain.1, l'.drain.2) := by
  rw [Value.toList_text_of_nonneg hv] at h
  have hvalue : numeralValue (List.replicate zeros '0' ++ Nat.toDigits 10 v.toInt.toNat) =
      v.toInt.toNat := by
    rw [numeralValue_zeros, numeralValue_toDigits]
  have hdigit : ∀ c ∈ List.replicate zeros '0' ++ Nat.toDigits 10 v.toInt.toNat,
      c.isDigit = true := by
    intro c hc
    rcases List.mem_append.1 hc with hc | hc
    · rw [List.eq_of_mem_replicate hc]
      rfl
    · exact Nat.isDigit_of_mem_toDigits (by decide) (by decide) hc
  cases hds : List.replicate zeros '0' ++ Nat.toDigits 10 v.toInt.toNat with
  | nil => exact absurd (List.append_eq_nil_iff.1 hds).2 Nat.toDigits_ne_nil
  | cons d ds =>
    rw [hds] at h hvalue hdigit
    exact drain_of_literal h hdigit hr (by omega)

/-- The `-` of a negative literal comes on its own. -/
theorem drain_of_negative {l : Lexer} {v : Value} {rest : List Char}
    (h : Spells l (v.text.toList ++ rest)) (hv : v.toInt < 0) :
    ∃ ts, l.drain.1 = .minus :: ts := by
  rw [Value.toList_text_of_neg hv] at h
  obtain ⟨l', -, hd⟩ := drain_of_mark h rfl
  exact ⟨l'.drain.1, by rw [hd]⟩

/-- A mark with a blank on either side. -/
theorem drain_of_spaced {l : Lexer} {c : Char} {rest : List Char} {t : Token}
    (h : Spells l (' ' :: c :: ' ' :: rest)) (ht : Token.ofPunctuation? c = some t) :
    ∃ l', Spells l' rest ∧ l.drain = (t :: l'.drain.1, l'.drain.2) := by
  obtain ⟨l₁, h₁, hd₁⟩ := drain_of_blank h rfl
  obtain ⟨l₂, h₂, hd₂⟩ := drain_of_mark h₁ ht
  obtain ⟨l₃, h₃, hd₃⟩ := drain_of_blank h₂ rfl
  exact ⟨l₃, h₃, by rw [hd₁, hd₂, hd₃]⟩

/-- **A token is read back from its spelling.** -/
theorem drain_of_spelling {l : Lexer} {t : Token} {rest : List Char}
    (h : Spells l (t.spelling ++ rest)) (ht : t ≠ .eof)
    (hn : ∀ v, t = .number v → 0 ≤ v.toInt ∧ ∀ c ∈ rest.head?, c.isDigit = false) :
    ∃ l', Spells l' rest ∧ l.drain = (t :: l'.drain.1, l'.drain.2) := by
  cases t with
  | number v => exact drain_of_number 0 h (hn v rfl).1 (hn v rfl).2
  | plus => exact drain_of_spaced h rfl
  | minus => exact drain_of_spaced h rfl
  | times => exact drain_of_spaced h rfl
  | slash => exact drain_of_spaced h rfl
  | caret => exact drain_of_spaced h rfl
  | leftParen => exact drain_of_mark h rfl
  | rightParen => exact drain_of_mark h rfl
  | bar => exact drain_of_mark h rfl
  | stop => exact drain_of_mark h rfl
  | semicolon =>
    obtain ⟨l₁, h₁, hd₁⟩ := drain_of_mark h rfl
    obtain ⟨l₂, h₂, hd₂⟩ := drain_of_blank h₁ rfl
    exact ⟨l₂, h₂, by rw [hd₁, hd₂]⟩
  | eof => exact absurd rfl ht

/-- Only a literal begins with a digit. -/
theorem isDigit_eq_false_of_head? {t : Token} {rest : List Char} (ht : t ≠ .eof)
    (hn : ∀ v, t ≠ .number v) : ∀ c ∈ (t.spelling ++ rest).head?, c.isDigit = false := by
  intro c hc
  cases t with
  | number v => exact absurd rfl (hn v)
  | eof => exact absurd rfl ht
  | _ => cases hc; rfl

end Lexer

end Calculator
