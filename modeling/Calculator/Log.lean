import Calculator.Token
import Calculator.Tree.Text

/-!
# The log

What a run of a program reports about itself on the way.
-/

namespace Calculator

inductive Level where
  | debug
  | trace
deriving DecidableEq

inductive Record where
  /-- The lexer gave a token to the parser. -/
  | lexed (token : Token)
  /-- The parser found a token that it expected, and goes past it. -/
  | matched (token : Token)
  | parsed (program : Program)
  /-- All expressions have their values. -/
  | evaluated (count : Nat)

def Record.level : Record → Level
  | .lexed _ | .matched _ => .trace
  | .parsed _ | .evaluated _ => .debug

def Record.message : Record → String
  | .lexed t => "lexed token " ++ t.label
  | .matched t => "matched " ++ t.name
  | .parsed p => "parsed program " ++ p.text
  | .evaluated n => "evaluated " ++ toString n ++ " expression(s)"

end Calculator
