import Calculator.Parser.Rule
import Calculator.Tree

/-!
# The grammar

Expressions separated by semicolons, terms by `+` and `-`, factors by `*` and `/`. A factor is a
literal or an expression in parentheses or between bars, and may be followed by a `^` and
another factor. Whether a bar opens or closes is never in doubt: it opens where an operand is
due and closes everywhere else.

What lies in parentheses, between bars or after a `^` is nested one deeper. The rules for one
level are made from the rule for the factors one level further in, and past the last level
there is only the rule that refuses everything.
-/

namespace Calculator.Grammar

open Cursor

/-- An expression whose factors are read by a given rule. -/
def expr (factor : Rule Factor) : Rule Expr :=
  (factor.chain Token.mulOp? .advance).chain Token.addOp? .advance

/-- An expression between a token that opens it and one that closes it. -/
def enclosed (inner : Rule Factor) (opener closer : Token) : Parse Expr := do
  expect opener
  let e ← (expr inner).run
  expect closer
  return e

/-- A factor without a `^`. What is nested in it is read by `inner`. -/
def operand (inner : Rule Factor) : Parse Factor := do
  match (← get).current with
  | .number v =>
    advance
    return .number v
  | .leftParen => return .group (← enclosed inner .leftParen .rightParen)
  | .bar => return .bars (← enclosed inner .bar .bar)
  | t => throw (.parse (.unexpected t))

/-- The power of a base that is already read, or the base alone where no `^` follows. -/
def powerOf (base : Factor) (inner : Rule Factor) : Parse Factor := do
  if (← get).current = .caret then
    expect .caret
    return .power base (← inner.run)
  else
    return base

theorem size_of_enclosed {inner : Rule Factor} {opener closer : Token} {c c' : Cursor} {e : Expr}
    (h : enclosed inner opener closer c = .ok e c') : c'.size < c.size := by
  obtain ⟨_, c₁, ho, h⟩ := Parse.bind_eq_ok.1 h
  obtain ⟨e, c₂, he, h⟩ := Parse.bind_eq_ok.1 h
  obtain ⟨_, c₃, hx, hp⟩ := Parse.bind_eq_ok.1 h
  obtain ⟨_, rfl⟩ := Parse.pure_eq_ok.1 hp
  have := size_of_expect ho
  have := (expr inner).progress he
  have := size_of_expect hx
  omega

theorem size_of_operand {inner : Rule Factor} {c c' : Cursor} {f : Factor}
    (h : operand inner c = .ok f c') : c'.size < c.size := by
  rw [operand, Parse.get_bind] at h
  cases hc : c.current with
  | number v =>
    simp only [hc] at h
    obtain ⟨_, c₁, ha, hp⟩ := Parse.bind_eq_ok.1 h
    obtain ⟨_, rfl⟩ := Parse.pure_eq_ok.1 hp
    exact (size_of_advance ha).2 (by simp [hc])
  | leftParen =>
    simp only [hc] at h
    obtain ⟨e, c₁, he, hp⟩ := Parse.bind_eq_ok.1 h
    obtain ⟨_, rfl⟩ := Parse.pure_eq_ok.1 hp
    exact size_of_enclosed he
  | bar =>
    simp only [hc] at h
    obtain ⟨e, c₁, he, hp⟩ := Parse.bind_eq_ok.1 h
    obtain ⟨_, rfl⟩ := Parse.pure_eq_ok.1 hp
    exact size_of_enclosed he
  | _ =>
    simp only [hc] at h
    cases h

theorem size_of_powerOf {base f : Factor} {inner : Rule Factor} {c c' : Cursor}
    (h : powerOf base inner c = .ok f c') : c'.size ≤ c.size := by
  rw [powerOf, Parse.get_bind] at h
  by_cases hc : c.current = .caret
  · rw [if_pos hc] at h
    obtain ⟨_, c₁, hx, h⟩ := Parse.bind_eq_ok.1 h
    obtain ⟨p, c₂, hf, hp⟩ := Parse.bind_eq_ok.1 h
    obtain ⟨_, rfl⟩ := Parse.pure_eq_ok.1 hp
    have := size_of_expect hx
    have := inner.progress hf
    omega
  · rw [if_neg hc] at h
    obtain ⟨_, rfl⟩ := Parse.pure_eq_ok.1 h
    exact Nat.le_refl _

/-- A factor whose nested factors are read by `inner`. -/
def factorOver (inner : Rule Factor) : Rule Factor where
  run := do powerOf (← operand inner) inner
  progress h := by
    obtain ⟨base, c₁, ho, hp⟩ := Parse.bind_eq_ok.1 h
    have := size_of_operand ho
    have := size_of_powerOf hp
    omega

/-- A factor in which others may be nested to a given depth. -/
def factor : Nat → Rule Factor
  | 0 => factorOver .tooDeep
  | depth + 1 => factorOver (factor depth)

/-- The expressions of a program. -/
def program : Rule Program :=
  (expr (factor maxNesting)).chain (fun t => if t = .semicolon then some () else none)
    (.expect .semicolon)

/-- A program up to its stop. Nothing after the stop is read. -/
def wholeProgram : Parse Program := do
  fetch
  let p ← program.run
  require .stop
  report (.parsed p)
  return p

end Calculator.Grammar
