import Calculator.Tree

/-!
# The text of a tree

Each tree has one text: a blank on either side of an operator, none inside parentheses or bars,
a semicolon and a blank between expressions and a stop at the end. Every function here
appends to a text already written.
-/

namespace Calculator

mutual

def Factor.write (before : String) : Factor → String
  | .number v => before ++ v.text
  | .group e => Expr.write (before ++ "(") e ++ ")"
  | .bars e => Expr.write (before ++ "|") e ++ "|"
  | .power b p => Factor.write (Factor.write before b ++ " ^ ") p

def Term.write (before : String) : Term → String
  | .single f => Factor.write before f
  | .cons f o rest =>
    Term.write (Factor.write before f ++ " " ++ o.toOperator.symbol ++ " ") rest

def Expr.write (before : String) : Expr → String
  | .single t => Term.write before t
  | .cons t o rest =>
    Expr.write (Term.write before t ++ " " ++ o.toOperator.symbol ++ " ") rest

end

def Program.write (before : String) : Program → String
  | .single e => Expr.write before e ++ "."
  | .cons e () rest => Program.write (Expr.write before e ++ "; ") rest

def Factor.text (f : Factor) : String := f.write ""

def Term.text (t : Term) : String := t.write ""

def Expr.text (e : Expr) : String := e.write ""

def Program.text (p : Program) : String := p.write ""

end Calculator
