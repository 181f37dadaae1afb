import Calculator.Token

/-!
# Errors

Everything that can go wrong with a program, by stage: cutting its bytes into tokens, reading
the tokens as a program, computing its values. An error says what happened; its wording is in
`message`, and `causes` are the messages of the errors that led to it.
-/

namespace Calculator

/-- How deep groups, bars and powers may be nested in one another. -/
def maxNesting : Nat := 256

inductive LexicalError where
  | invalidCharacter (c : Char)
  /-- A literal too large to be a value, with its digits as written. -/
  | literalTooLarge (digits : String)
  /-- A read of the input that failed, with its message. -/
  | readFailure (reason : String)
deriving DecidableEq

inductive ParseError where
  | mismatch (expected found : Token)
  /-- A token that cannot begin an operand where one is due. -/
  | unexpected (token : Token)
  | nestingTooDeep
deriving DecidableEq

inductive RuntimeError where
  | divisionByZero
  | overflow (op : Operator)
  | absOverflow
deriving DecidableEq

inductive Error where
  | lexical (e : LexicalError)
  | parse (e : ParseError)
  | runtime (e : RuntimeError)
deriving DecidableEq

def LexicalError.message : LexicalError → String
  | .invalidCharacter c => "Invalid character '" ++ String.singleton c ++ "'"
  | .literalTooLarge digits => "Integer literal " ++ digits ++ " is too large"
  | .readFailure _ => "I/O error"

def ParseError.message : ParseError → String
  | .mismatch expected found => "Expected: " ++ expected.name ++ ". Found: " ++ found.name
  | .unexpected token => "Token " ++ token.name ++ " is invalid here"
  | .nestingTooDeep => "Expression nesting exceeds the limit of " ++ toString maxNesting

def RuntimeError.message : RuntimeError → String
  | .divisionByZero => "Division by zero"
  | .overflow op => "Integer overflow while evaluating '" ++ op.symbol ++ "'"
  | .absOverflow => "Integer overflow while taking an absolute value"

/-- Only a failed read has a cause of its own. -/
def LexicalError.causes : LexicalError → List String
  | .readFailure reason => [reason]
  | _ => []

namespace Error

/-- The message of the stage's own error, after the name of the stage. -/
def message : Error → String
  | .lexical e => "Lexical error: " ++ e.message
  | .parse e => "Parse error: " ++ e.message
  | .runtime e => "Runtime error: " ++ e.message

def causes : Error → List String
  | .lexical e => e.message :: e.causes
  | .parse e => [e.message]
  | .runtime e => [e.message]

def isLexical : Error → Bool
  | .lexical _ => true
  | _ => false

def isParse : Error → Bool
  | .parse _ => true
  | _ => false

def isRuntime : Error → Bool
  | .runtime _ => true
  | _ => false

end Error

end Calculator
