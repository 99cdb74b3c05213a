import GrammarArt.CommandLine.Run
import GrammarArt.Png

/-! # The program

The commands of `CommandLine`, run on the disk and the terminal.
-/
namespace GrammarArt

open CommandLine

/-- The number of an error.  Some operations give it with its sign turned. -/
def errorNumber (code : UInt32) : UInt32 := min code (0 - code)

/-- The error of a file operation. -/
def fileError (e : IO.Error) : FileError :=
  match e with
  | .noFileOrDirectory .. => .notFound
  | .alreadyExists .. => .exists
  | .inappropriateType _ code _ =>
    if errorNumber code = 20 then .notDirectory
    else if errorNumber code = 21 then .isDirectory
    else .other (toString e)
  | .invalidArgument _ code _ =>
    if errorNumber code = 36 then .nameTooLong else .other (toString e)
  | .userError _ => .notText
  | _ => .other (toString e)

/-- A file operation with its error as a value. -/
def attempt {α : Type} (action : IO α) : IO (Except FileError α) := do
  match ← action.toBaseIO with
  | .ok a => return .ok a
  | .error e => return .error (fileError e)

/-- Whether there is a directory at a path: it can be opened, but not read. -/
def isDirectory (path : String) : IO Bool := do
  let outcome ← attempt do
    let handle ← IO.FS.Handle.mk path .read
    handle.read 1
  match outcome with
  | .error .isDirectory => return true
  | _ => return false

instance : Host IO where
  print text := do
    let out ← IO.getStdout
    out.putStr text
    out.flush
  report text := IO.eprint text
  drawSeed := do
    let bytes ← IO.getRandomBytes 4
    return bytes.foldl (fun word b => word <<< 8 ||| b.toUInt32) 0
  readText path := attempt (IO.FS.readFile path)
  writeText path text := attempt (IO.FS.writeFile path text)
  writeImage path frame := attempt (IO.FS.writeBinFile path (Png.encode frame))
  makeDirectory path := do
    match ← attempt (IO.FS.createDir path) with
    | .error .exists => return if ← isDirectory path then .ok () else .error .exists
    | outcome => return outcome

end GrammarArt

/-- The entry point. -/
def main (args : List String) : IO UInt32 := GrammarArt.CommandLine.run args
