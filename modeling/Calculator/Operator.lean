/-!
# Operators

The five binary operators, and the two families that may be chained: `+` and `-` join the terms
of a sum, `*` and `/` the factors of a product.
-/

namespace Calculator

inductive Operator where
  | add
  | sub
  | mul
  | div
  | pow
deriving DecidableEq, Repr

/-- The sign an operator is written with. -/
def Operator.symbol : Operator → String
  | .add => "+"
  | .sub => "-"
  | .mul => "*"
  | .div => "/"
  | .pow => "^"

/-- The word an operator has in the outline of a tree. -/
def Operator.label : Operator → String
  | .add => "Add"
  | .sub => "Sub"
  | .mul => "Mul"
  | .div => "Div"
  | .pow => "Pow"

/-- The operators between the terms of a sum. -/
inductive AddOp where
  | add
  | sub
deriving DecidableEq, Repr

def AddOp.toOperator : AddOp → Operator
  | .add => .add
  | .sub => .sub

/-- The operators between the factors of a product. -/
inductive MulOp where
  | mul
  | div
deriving DecidableEq, Repr

def MulOp.toOperator : MulOp → Operator
  | .mul => .mul
  | .div => .div

end Calculator
