/-!
# Command line options

Arguments are looked at in order, and the first one that settles the matter does: a request for
help or the version, or an argument that is not understood. Flags of one letter may be joined after
a single `-`. After `--` every argument is a path, and so is a lone `-`. No flag may be given twice,
and no more than one path.
-/

namespace Calculator

structure Options where
  /-- Show the tokens of the input and nothing else. -/
  tokens : Bool := false
  /-- Show the text of the program before its values. -/
  tree : Bool := false
  /-- The file to read, instead of the standard input. -/
  path : Option String := none
deriving DecidableEq

/-- What is said instead of running a program. -/
inductive Notice where
  | usage
  | help
  | version
deriving DecidableEq

namespace Options

def addFlag (o : Options) : Char → Except Notice Options
  | 't' => if o.tokens then .error .usage else .ok { o with tokens := true }
  | 'a' => if o.tree then .error .usage else .ok { o with tree := true }
  | 'h' => .error .help
  | 'V' => .error .version
  | _ => .error .usage

/-- The letter of a flag written as a word. -/
def flagOfWord? : List Char → Option Char
  | ['t', 'o', 'k', 'e', 'n', 's'] => some 't'
  | ['a', 's', 't'] => some 'a'
  | ['h', 'e', 'l', 'p'] => some 'h'
  | ['v', 'e', 'r', 's', 'i', 'o', 'n'] => some 'V'
  | _ => none

def addWord (o : Options) (word : List Char) : Except Notice Options :=
  match flagOfWord? word with
  | some flag => o.addFlag flag
  | none => .error .usage

def addPath (o : Options) (path : String) : Except Notice Options :=
  if path = "" ∨ o.path ≠ none then .error .usage else .ok { o with path := some path }

def addPaths : Options → List String → Except Notice Options
  | o, [] => .ok o
  | o, arg :: args => do addPaths (← o.addPath arg) args

def addArguments : Options → List String → Except Notice Options
  | o, [] => .ok o
  | o, arg :: args =>
    match arg.toList with
    | ['-', '-'] => o.addPaths args
    | '-' :: '-' :: word => do addArguments (← o.addWord word) args
    | '-' :: flag :: flags => do addArguments (← (flag :: flags).foldlM addFlag o) args
    | _ => do addArguments (← o.addPath arg) args

def ofArguments (args : List String) : Except Notice Options := addArguments {} args

end Options

end Calculator
