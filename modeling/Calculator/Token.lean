import Calculator.Operator
import Calculator.Value

/-!
# Tokens

What the text of a program is cut into. The end of the input is a token too, so that a parser
always has one in hand.
-/

namespace Calculator

inductive Token where
  | number (value : Value)
  | plus
  | minus
  | times
  | slash
  | leftParen
  | rightParen
  | semicolon
  | bar
  | caret
  | stop
  | eof
deriving DecidableEq

namespace Token

/-- The token a single character stands for. -/
def ofPunctuation? : Char → Option Token
  | '+' => some .plus
  | '-' => some .minus
  | '*' => some .times
  | '/' => some .slash
  | '(' => some .leftParen
  | ')' => some .rightParen
  | ';' => some .semicolon
  | '|' => some .bar
  | '^' => some .caret
  | '.' => some .stop
  | _ => none

/-- How messages speak of a token. All literals are called `integer`. -/
def name : Token → String
  | .number _ => "integer"
  | .plus => "+"
  | .minus => "-"
  | .times => "*"
  | .slash => "/"
  | .leftParen => "("
  | .rightParen => ")"
  | .semicolon => ";"
  | .bar => "|"
  | .caret => "^"
  | .stop => "."
  | .eof => "eof"

/-- How a token dump and the log show a token. -/
def label : Token → String
  | .number v => "Num(" ++ v.text ++ ")"
  | .plus => "Plus"
  | .minus => "Minus"
  | .times => "Multi"
  | .slash => "Div"
  | .leftParen => "Open"
  | .rightParen => "Close"
  | .semicolon => "Break"
  | .bar => "Abs"
  | .caret => "Expo"
  | .stop => "Stop"
  | .eof => "Eof"

/-- The operator of a sum that a token stands for. -/
def addOp? : Token → Option AddOp
  | .plus => some .add
  | .minus => some .sub
  | _ => none

/-- The operator of a product that a token stands for. -/
def mulOp? : Token → Option MulOp
  | .times => some .mul
  | .slash => some .div
  | _ => none

end Token

end Calculator
