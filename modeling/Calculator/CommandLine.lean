import Calculator.CommandLine.Directory
import Calculator.CommandLine.Options
import Calculator.Run

/-!
# The command line

What the calculator prints and how it exits, for given arguments, standard input and files.
-/

namespace Calculator

/-- How the program ends and what it has printed by then. -/
structure Outcome where
  exit : UInt32
  stdout : String
  stderr : String
deriving DecidableEq

namespace Outcome

/-- The end of a program that printed something before it failed. -/
def failure (printed message : String) : Outcome := ⟨1, printed, message ++ "\n"⟩

/-- What the program says of itself when it is asked to. -/
def helpText : String :=
  "A predictive recursive-descent interpreter for a small integer calculator language\n\n" ++
  "Usage: simcalc [OPTIONS] [PATH]\n\n" ++
  "Arguments:\n" ++
  "  [PATH]  The program file. Standard input is read when omitted\n\n" ++
  "Options:\n" ++
  "  -t, --tokens   Print the token stream instead of evaluating the program\n" ++
  "  -a, --ast      Print the parsed program in canonical form before its result\n" ++
  "  -h, --help     Print help\n" ++
  "  -V, --version  Print version\n"

def ofNotice : Notice → Outcome
  | .usage => ⟨2, "", "usage"⟩
  | .help => ⟨0, helpText, ""⟩
  | .version => ⟨0, "simcalc 0.1.0\n", ""⟩

end Outcome

/-- Each token on a line of its own. -/
def tokenLines (tokens : List Token) : String :=
  tokens.foldl (fun before t => before ++ t.label ++ "\n") ""

namespace Options

/-- Shows all tokens of an input up to the first error, also those after a stop. -/
def dump (source : Reader) : Outcome :=
  match Lexer.drain { reader := source } with
  | (tokens, none) => ⟨0, tokenLines tokens, ""⟩
  | (tokens, some e) => .failure (tokenLines tokens) (Error.lexical e).message

/-- Shows the values of a program, after its text if that is asked for. The text is shown
before anything is evaluated. -/
def evaluate (o : Options) (source : Reader) : Outcome :=
  match parse source with
  | .error e => .failure "" e.message
  | .ok p =>
    let shown := if o.tree then p.text ++ "\n" else ""
    match p.eval with
    | .error e => .failure shown (Error.runtime e).message
    | .ok values => ⟨0, shown ++ render values ++ "\n", ""⟩

/-- The tokens alone if they are asked for, whatever else is. -/
def execute (o : Options) (source : Reader) : Outcome :=
  if o.tokens then dump source else o.evaluate source

end Options

/-- A way to read arguments. They give options, or they settle the matter and nothing is run. -/
abbrev ArgumentReader := List String → Except Outcome Options

/-- The way that the program reads its own. -/
def Options.reader : ArgumentReader := fun args => (ofArguments args).mapError .ofNotice

/-- What the program does wherever its input comes from and however its arguments are read. The
file that is asked for is opened before anything is printed. -/
def executeWith {m : Type → Type} [Monad m] (arguments : ArgumentReader) (args : List String)
    (stdin : m Reader) (openFile : String → m (Except OpenFailure Reader)) : m Outcome := do
  match arguments args with
  | .error outcome => return outcome
  | .ok o =>
    match o.path with
    | none => return o.execute (← stdin)
    | some path =>
      match ← openFile path with
      | .error e => return .failure "" (e.message path)
      | .ok source => return o.execute source

/-- What the program does with a given input and given files. -/
def executeBy (arguments : ArgumentReader) (args : List String) (stdin : Reader)
    (files : Directory) : Outcome :=
  Id.run (executeWith arguments args (pure stdin) fun path => pure (files.openFile path))

def execute (args : List String) (stdin : Reader) (files : Directory) : Outcome :=
  executeBy Options.reader args stdin files

end Calculator
