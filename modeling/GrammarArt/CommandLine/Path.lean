import GrammarArt.CommandLine.Host

/-! # Paths

A path text is cut at its slashes, and what stands between them is read in two ways.
`Path.read` takes it as a walk from directory to directory, where every `.` and `..` is a
step of its own: the walk `a/../b` needs a directory `a`.  `parents` lists the texts of the
directories that a path lies in; there a `.` is passed over, unless the path starts with it,
and `..` counts as a name.
-/
namespace GrammarArt.CommandLine

/-! ### Walks -/

/-- A step from a directory. -/
inductive Step where
  /-- The step `.` ends where it starts. -/
  | stay
  /-- The step `..` ends in the directory above. -/
  | up
  /-- A name is a step to what has that name. -/
  | into (name : String)
  deriving DecidableEq, Repr

/-- The step that a part of a path text stands for; none for the empty part, between two
slashes or at an end. -/
def Step.ofPart? (part : List Char) : Option Step :=
  if part = [] then none
  else if part = ['.'] then some .stay
  else if part = ['.', '.'] then some .up
  else some (.into (String.ofList part))

/-- A walk: whether it starts at the root, its steps, and whether it has to end in a
directory. -/
structure Path where
  fromRoot : Bool
  steps : List Step
  toDirectory : Bool
  deriving DecidableEq, Repr

namespace Path

/-- The length in bytes from which on a path text is too long. -/
def tooLong : Nat := 4096

/-- The length in bytes of the longest name. -/
def longestName : Nat := 255

/-- The walk of a path text.  A slash in front stands for the root, one behind asks for a
directory. -/
def ofString (text : String) : Path :=
  let cs := text.toList
  ⟨cs.head? = some '/', (cs.splitOn '/').filterMap Step.ofPart?, cs.getLast? = some '/'⟩

/-- The walk of a path text, if it can be one: an empty text leads nowhere. -/
def read (text : String) : Except FileError Path :=
  if text = "" then .error .notFound
  else if tooLong ≤ text.utf8ByteSize then .error .nameTooLong
  else .ok (ofString text)

end Path

/-! ### Parents -/

/-- Whether a part of a path text is passed over. -/
def isIdle (part : List Char) : Bool := part = [] ∨ part = ['.']

/-- What remains of some parts, the last one first, when the first one that counts is taken
away, then the next one, and so on. -/
def partsAbove : List (List Char) → List (List (List Char))
  | [] => []
  | part :: parts =>
    if isIdle part then partsAbove parts else parts.dropWhile isIdle :: partsAbove parts

/-- The start of a path text that belongs to all its parents, and the rest. -/
def cutStart : List Char → List Char × List Char
  | '/' :: cs => (['/'], cs)
  | ['.'] => (['.'], [])
  | '.' :: '/' :: cs => (['.'], '/' :: cs)
  | cs => ([], cs)

/-- The directories that a path lies in, from the inside out. -/
def parents (text : String) : List String :=
  let (start, rest) := cutStart text.toList
  ((partsAbove (rest.splitOn '/').reverse).map fun parts =>
    String.ofList (start ++ ['/'].intercalate parts.reverse)).filter (· ≠ "")

/-- Every part that counts has what remains above it. -/
theorem length_partsAbove (parts : List (List Char)) :
    (partsAbove parts).length = parts.countP fun part => !isIdle part := by
  induction parts with
  | nil => rfl
  | cons part parts ih => cases h : isIdle part <;> simp [partsAbove, h, ih]

end GrammarArt.CommandLine
