import Calculator.CommandLine

/-!
# The program

Lets the command line read from the system and prints what it comes to.
-/

namespace Calculator

/-- All reads of a stream up to its end or its first failure. -/
partial def readsOf (stream : IO.FS.Stream) : IO (List Read) := do
  try
    let chunk ← stream.read 8192
    if chunk.isEmpty then
      return []
    else
      return .bytes chunk.toList :: (← readsOf stream)
  catch e =>
    return [.failure (toString e)]

def openFailure : IO.Error → OpenFailure
  | .noFileOrDirectory .. => .notFound
  | .inappropriateType _ code details
  | .invalidArgument _ code details
  | .permissionDenied _ code details =>
    .other (details.capitalize ++ " (os error " ++ toString code ++ ")")
  | e => .other (toString e)

def openPath (path : String) : IO (Except OpenFailure Reader) := do
  try
    let handle ← IO.FS.Handle.mk path .read
    return .ok ⟨[], ← readsOf (.ofHandle handle)⟩
  catch e =>
    return .error (openFailure e)

def readStdin : IO Reader := do
  return ⟨[], ← readsOf (← IO.getStdin)⟩

end Calculator

def main (args : List String) : IO UInt32 := do
  let outcome ←
    Calculator.executeWith Calculator.Options.reader args Calculator.readStdin Calculator.openPath
  IO.print outcome.stdout
  IO.eprint outcome.stderr
  return outcome.exit
