import GrammarArt.CommandLine.Host
import GrammarArt.Session

/-! # Reports of what went wrong

A command that fails says what it was doing, and below that the causes, the nearest one
first:

    Error: open config 'c.json'

    Caused by:
        No such file or directory (os error 2)

Several causes are numbered from zero.
-/
namespace GrammarArt.CommandLine

/-- Why a command fails: a message, and the causes behind it. -/
structure Trouble where
  message : String
  causes : List String
  deriving DecidableEq, Repr

namespace Trouble

/-- The lines of a cause, the first one behind its label and all others behind blanks. -/
def indent (label blanks cause : String) : String :=
  label ++ ("\n" ++ blanks).intercalate ((cause.toList.splitOn '\n').map String.ofList)

/-- The text of the causes. -/
def causesText : List String → String
  | [] => ""
  | [cause] => "\n\nCaused by:\n" ++ indent "    " "    " cause
  | causes =>
    "\n\nCaused by:" ++ String.join (causes.zipIdx.map fun (cause, n) =>
      "\n" ++ indent s!"    {n}: " "       " cause)

/-- The report of a trouble. -/
def report (trouble : Trouble) : String :=
  s!"Error: {trouble.message}{causesText trouble.causes}\n"

/-- A file that could not be used, in the course of something. -/
def ofFile (doing : String) (error : FileError) : Trouble := ⟨doing, [error.message]⟩

end Trouble

/-- The texts of a failure: its own, and that of a fault in a text or a derivation alone. -/
def failureChain (failure : Failure) : List String :=
  match failure with
  | .grammar _ | .expression _ | .derivation _ => [failure.message, failure.cause]
  | .invalid _ | .unavailable _ => [failure.message]

/-- A failure to build a tree. -/
def Trouble.ofFailure (failure : Failure) : Trouble :=
  ⟨failure.message, (failureChain failure).drop 1⟩

/-- A session that failed. -/
def Trouble.ofSession (error : SessionError) : Trouble :=
  ⟨"render session failed", error.message :: failureChain error.inner⟩

end GrammarArt.CommandLine
