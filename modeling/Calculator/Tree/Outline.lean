import Calculator.Tree

/-!
# The outline of a tree

One line that names every node of a tree and shows what each holds. Unlike its text, the outline
of a tree shows how powers are nested and tells a negative literal from a minus sign. As with
texts, every function appends to what is already written.
-/

namespace Calculator

mutual

def Factor.sketch (before : String) : Factor → String
  | .number v => before ++ "Number(" ++ v.text ++ ")"
  | .group e => Expr.sketch (before ++ "Group(") e ++ ")"
  | .bars e => Expr.sketch (before ++ "Abs(") e ++ ")"
  | .power b p =>
    Factor.sketch (Factor.sketch (before ++ "Exponent \x7b base: ") b ++ ", power: ") p ++ " \x7d"

def Term.sketch (before : String) : Term → String
  | .single f => Factor.sketch (before ++ "Term \x7b factor: ") f ++ ", rest: [] \x7d"
  | .cons f o rest =>
    Term.sketchLinks
      (Factor.sketch (before ++ "Term \x7b factor: ") f
        ++ ", rest: [(" ++ o.toOperator.label ++ ", ")
      rest ++ "] \x7d"

/-- The links of a term, from the item of the first link on. -/
def Term.sketchLinks (before : String) : Term → String
  | .single f => Factor.sketch before f ++ ")"
  | .cons f o rest =>
    Term.sketchLinks (Factor.sketch before f ++ "), (" ++ o.toOperator.label ++ ", ") rest

def Expr.sketch (before : String) : Expr → String
  | .single t => Term.sketch (before ++ "Expr \x7b term: ") t ++ ", rest: [] \x7d"
  | .cons t o rest =>
    Expr.sketchLinks
      (Term.sketch (before ++ "Expr \x7b term: ") t
        ++ ", rest: [(" ++ o.toOperator.label ++ ", ")
      rest ++ "] \x7d"

/-- The links of an expression, from the item of the first link on. -/
def Expr.sketchLinks (before : String) : Expr → String
  | .single t => Term.sketch before t ++ ")"
  | .cons t o rest =>
    Expr.sketchLinks (Term.sketch before t ++ "), (" ++ o.toOperator.label ++ ", ") rest

end

/-- The expressions of a program after its first one. -/
def Program.sketchLinks (before : String) : Program → String
  | .single e => Expr.sketch before e
  | .cons e () rest => Program.sketchLinks (Expr.sketch before e ++ ", ") rest

def Program.outline : Program → String
  | .single e => Expr.sketch "Program \x7b list: ExprList \x7b expr: " e ++ ", rest: [] \x7d \x7d"
  | .cons e () rest =>
    Program.sketchLinks
      (Expr.sketch "Program \x7b list: ExprList \x7b expr: " e ++ ", rest: [") rest ++ "] \x7d \x7d"

end Calculator
