import GrammarArt.Frame

/-! # What a command needs from its surroundings

A command prints, reads and writes files, and needs a seed where none is given.  It is
written for any `Host`, so it can be run on a disk as well as on files in memory.
-/
namespace GrammarArt.CommandLine

/-- Why a file cannot be used. -/
inductive FileError where
  | notFound
  | exists
  | notDirectory
  | isDirectory
  | nameTooLong
  /-- The bytes of the file are no text. -/
  | notText
  | other (text : String)
  deriving DecidableEq, Repr

/-- The text of a file error. -/
def FileError.message : FileError → String
  | notFound => "No such file or directory (os error 2)"
  | .exists => "File exists (os error 17)"
  | notDirectory => "Not a directory (os error 20)"
  | isDirectory => "Is a directory (os error 21)"
  | nameTooLong => "File name too long (os error 36)"
  | notText => "stream did not contain valid UTF-8"
  | other text => text

/-- Whether the file could be opened, and only reading it failed. -/
def FileError.isOfReading : FileError → Bool
  | isDirectory | notText => true
  | _ => false

/-- The surroundings of a command. -/
class Host (m : Type → Type) where
  /-- A text is written to the standard output. -/
  print : String → m Unit
  /-- A text is written to the standard error. -/
  report : String → m Unit
  /-- A number for those who have none. -/
  drawSeed : m UInt32
  /-- The text of the file at a path. -/
  readText : String → m (Except FileError String)
  /-- A text becomes the file at a path. -/
  writeText : String → String → m (Except FileError Unit)
  /-- An image becomes the file at a path, in the format PNG. -/
  writeImage : String → Frame → m (Except FileError Unit)
  /-- The directory at a path is made, unless there is one; those it lies in are not. -/
  makeDirectory : String → m (Except FileError Unit)

end GrammarArt.CommandLine
