import Calculator.Chain
import Calculator.Operator
import Calculator.Value

/-!
# Program trees

A program is a row of expressions, an expression a row of terms, a term a row of factors. A
factor is a literal, an expression in parentheses or between bars, or a power.

Trees are also made by hand, so a literal may be negative and the base of a power may be a power
itself, although no text is read as such a tree.
-/

namespace Calculator

inductive Factor where
  | number (value : Value)
  /-- An expression in parentheses. -/
  | group (inner : Chain AddOp (Chain MulOp Factor))
  /-- The absolute value of an expression, written between bars. -/
  | bars (inner : Chain AddOp (Chain MulOp Factor))
  | power (base exponent : Factor)

abbrev Term := Chain MulOp Factor

abbrev Expr := Chain AddOp Term

/-- The semicolons between expressions have nothing to tell them apart. -/
abbrev Program := Chain Unit Expr

end Calculator
