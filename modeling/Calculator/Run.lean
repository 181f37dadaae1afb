import Calculator.Parser.Grammar
import Calculator.Tree.Evaluation

/-!
# Running a program

A program is read up to its stop, then evaluated, and its values are shown.
-/

namespace Calculator

/-- What a run came to. -/
structure Run where
  /-- The values of the program as they are shown. -/
  result : Except Error String
  /-- What the run reported, in order. -/
  log : List Record
  /-- The input that was not needed. -/
  unread : Reader

/-- The tree of a program. -/
def parse (source : Reader) : Except Error Program :=
  match Grammar.wholeProgram (.start source) with
  | .ok p _ => .ok p
  | .error e _ => .error e

def run (source : Reader) : Run :=
  match Grammar.wholeProgram (.start source) with
  | .error e c => ⟨.error e, c.log.reverse, c.lexer.reader⟩
  | .ok p c =>
    match p.eval with
    | .error e => ⟨.error (.runtime e), c.log.reverse, c.lexer.reader⟩
    | .ok values =>
      ⟨.ok (render values), (.evaluated values.length :: c.log).reverse, c.lexer.reader⟩

def interpret (source : Reader) : Except Error String := (run source).result

/-- The values of a program given as a text. -/
def interpretText (text : String) : Except Error String := interpret (.ofString text)

end Calculator
