import Calculator.Reader

/-!
# Files of the working directory

A path is followed name by name from the working directory, or from the root if it begins with
`/`. Of the directories above the working directory nothing is known but that they are
directories, so no name is found in them.

A directory can be opened like a file; it is the first read that fails.
-/

namespace Calculator

/-- Why a file cannot be opened. -/
inductive OpenFailure where
  | notFound
  | other (reason : String)
deriving DecidableEq

namespace OpenFailure

def notDirectory : OpenFailure := .other "Not a directory (os error 20)"

def nameTooLong : OpenFailure := .other "File name too long (os error 36)"

def message (path : String) : OpenFailure → String
  | .notFound => "File not found: " ++ path
  | .other reason => "Failed to read '" ++ path ++ "': " ++ reason

end OpenFailure

/-- The files of the working directory, by name. -/
abbrev Directory := List (String × Reader)

/-- Where a path has led so far. -/
inductive Place where
  | workingDirectory
  | directoryAbove
  | file (content : Reader)

/-- What is read from a directory. -/
def directoryReader : Reader := ⟨[], [.failure "Is a directory (os error 21)"]⟩

namespace Directory

/-- The longest name a file may have, in bytes. -/
def maxName : Nat := 255

/-- The longest path that may be asked for, in bytes. -/
def maxPath : Nat := 4095

/-- Follows one name of a path. An empty name, as between two slashes or after the last one,
asks for a directory like `.` does. -/
def enter (files : Directory) (place : Place) (name : String) : Except OpenFailure Place :=
  match place with
  | .file _ => .error .notDirectory
  | .directoryAbove =>
    if name = "" ∨ name = "." ∨ name = ".." then .ok .directoryAbove
    else if maxName < name.utf8ByteSize then .error .nameTooLong
    else .error .notFound
  | .workingDirectory =>
    if name = "" ∨ name = "." then .ok .workingDirectory
    else if name = ".." then .ok .directoryAbove
    else if maxName < name.utf8ByteSize then .error .nameTooLong
    else
      match files.lookup name with
      | some content => .ok (.file content)
      | none => .error .notFound

/-- The place a path leads to. -/
def follow (files : Directory) (path : String) : Except OpenFailure Place :=
  if maxPath < path.utf8ByteSize then .error .nameTooLong
  else
    match path.toList.splitOn '/' with
    | [] :: names => (names.map String.ofList).foldlM files.enter .directoryAbove
    | names => (names.map String.ofList).foldlM files.enter .workingDirectory

/-- Opens the file at a path. -/
def openFile (files : Directory) (path : String) : Except OpenFailure Reader := do
  match ← files.follow path with
  | .file content => return content
  | .workingDirectory | .directoryAbove => return directoryReader

end Directory

end Calculator
