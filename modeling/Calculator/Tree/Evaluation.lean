import Calculator.Arithmetic
import Calculator.Tree

/-!
# The value of a tree

Chains are evaluated from the left, and an operator is applied as soon as its right operand has
a value; the base of a power comes before its exponent. The first operation that fails ends the
evaluation.

`Term.evalFrom` and `Expr.evalFrom` evaluate what is left of a chain. Their `join` says what
becomes of the next item's value: at the start of a chain it stands for itself, and later it is
the right operand of the operator before it, whose left operand is the value of everything
before that.
-/

namespace Calculator

mutual

def Factor.eval : Factor → Except RuntimeError Value
  | .number v => .ok v
  | .group e => Expr.evalFrom .ok e
  | .bars e => Expr.evalFrom .ok e >>= Value.abs
  | .power b p => do
    let v ← Factor.eval b
    let w ← Factor.eval p
    Operator.pow.apply v w

def Term.evalFrom (join : Value → Except RuntimeError Value) :
    Term → Except RuntimeError Value
  | .single f => Factor.eval f >>= join
  | .cons f o rest => do
    let v ← Factor.eval f >>= join
    Term.evalFrom (o.toOperator.apply v) rest

def Expr.evalFrom (join : Value → Except RuntimeError Value) :
    Expr → Except RuntimeError Value
  | .single t => Term.evalFrom .ok t >>= join
  | .cons t o rest => do
    let v ← Term.evalFrom .ok t >>= join
    Expr.evalFrom (o.toOperator.apply v) rest

end

def Term.eval (t : Term) : Except RuntimeError Value := t.evalFrom .ok

def Expr.eval (e : Expr) : Except RuntimeError Value := e.evalFrom .ok

/-- The values of the expressions, in order. -/
def Program.eval (p : Program) : Except RuntimeError (List Value) := p.items.mapM Expr.eval

/-- The values of a program as they are shown: separated by semicolons and ended by a stop. -/
def render (values : List Value) : String := "; ".intercalate (values.map Value.text) ++ "."

end Calculator
