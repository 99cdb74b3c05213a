import GrammarArt.CommandLine.Path

/-! # A disk in memory

A `Disk` is a table of directories, texts and images by their places.  Every use of a path
is a walk, step by step: the walk can only leave a directory, so what keeps a file from
being used is the first place on the way that is missing or no directory.
-/
namespace GrammarArt.CommandLine

/-- What lies at a place. -/
inductive Entry where
  | directory
  | text (content : String)
  | image (frame : Frame)
  /-- The null device takes everything and holds nothing. -/
  | void
  deriving DecidableEq, Repr

/-- The names on the way from the root to a place, the last one first. -/
abbrev Place := List String

/-- Entries by their places, and the place where walks start that do not start at the root.
The root is a directory, whatever the table says. -/
structure Disk where
  entries : List (Place × Entry)
  here : Place

namespace Disk

/-- What lies at a place. -/
def get? (disk : Disk) (place : Place) : Option Entry :=
  if place = [] then some .directory else disk.entries.lookup place

/-- The disk after something was put at a place. -/
def put (disk : Disk) (place : Place) (entry : Entry) : Disk :=
  { disk with entries := (place, entry) :: disk.entries.filter fun e => e.1 ≠ place }

theorem get?_put_self {disk : Disk} {place : Place} {entry : Entry} (h : place ≠ []) :
    (disk.put place entry).get? place = some entry := by
  simp [get?, put, h]

/-! ### Walks -/

/-- Where a step from a place ends; nothing need lie there. -/
def step (disk : Disk) (place : Place) (step : Step) : Except FileError Place :=
  match disk.get? place with
  | none => .error .notFound
  | some .directory =>
    match step with
    | .stay => .ok place
    | .up => .ok place.tail
    | .into name =>
      if Path.longestName < name.utf8ByteSize then .error .nameTooLong else .ok (name :: place)
  | some _ => .error .notDirectory

/-- Where some steps from a place end; nothing need lie there. -/
def walk (disk : Disk) : Place → List Step → Except FileError Place
  | place, [] => .ok place
  | place, s :: steps =>
    match disk.step place s with
    | .error e => .error e
    | .ok next => disk.walk next steps

/-- The place where the walk of a path starts. -/
def start (disk : Disk) (path : Path) : Place := if path.fromRoot then [] else disk.here

/-- Where the walk of a path ends. -/
def find (disk : Disk) (path : Path) : Except FileError Place :=
  disk.walk (disk.start path) path.steps

theorem walk_append (disk : Disk) (place : Place) (first second : List Step) :
    disk.walk place (first ++ second) =
      (disk.walk place first).bind fun next => disk.walk next second := by
  induction first generalizing place with
  | nil => rfl
  | cons s first ih =>
    simp only [List.cons_append, walk]
    cases disk.step place s with
    | error e => rfl
    | ok next => exact ih next

/-! ### Uses of paths -/

/-- What lies at the end of a path. -/
def look? (disk : Disk) (text : String) : Option Entry :=
  match Path.read text with
  | .error _ => none
  | .ok path =>
    match disk.find path with
    | .error _ => none
    | .ok place => disk.get? place

/-- The text of a file. -/
def readText (disk : Disk) (text : String) : Except FileError String := do
  let path ← Path.read text
  let place ← disk.find path
  match disk.get? place with
  | none => throw .notFound
  | some .directory => throw .isDirectory
  | some entry =>
    if path.toDirectory then throw .notDirectory
    match entry with
    | .text content => return content
    | .image _ => throw .notText
    | _ => return ""

/-- The disk after a file was written.  A path that ends in a slash is no file's, whether or
not something lies there. -/
def write (disk : Disk) (text : String) (entry : Entry) : Except FileError Disk := do
  let path ← Path.read text
  if path.toDirectory then
    let _ ← disk.find { path with steps := path.steps.dropLast ++ [.stay] }
    throw .isDirectory
  let place ← disk.find path
  match disk.get? place with
  | some .directory => throw .isDirectory
  | some .void => return disk
  | _ => return disk.put place entry

/-- The disk after a directory was made, unless there was one. -/
def makeDirectory (disk : Disk) (text : String) : Except FileError Disk := do
  let path ← Path.read text
  let place ← disk.find path
  match disk.get? place with
  | none => return disk.put place .directory
  | some .directory => return disk
  | some _ => throw .exists

/-- The disk with a text at a path, and with the directories that the path lies in, as far as
these can be made. -/
def withText (disk : Disk) (path content : String) : Disk :=
  let disk := (parents path).foldr
    (fun dir disk => (disk.makeDirectory dir).toOption.getD disk) disk
  (disk.write path (.text content)).toOption.getD disk

/-- The names of the directories right below the root. -/
def topNames : List String :=
  ["bin", "boot", "dev", "etc", "home", "lib", "media", "mnt", "opt", "proc", "root", "run",
    "sbin", "srv", "sys", "tmp", "usr", "var"]

/-- The usual directories and the null device, and a directory to start from, whose name is
empty, so that no path text spells it. -/
def initial : Disk where
  entries := [(["", "tmp"], .directory), (["null", "dev"], .void)] ++
    topNames.map fun name => ([name], .directory)
  here := ["", "tmp"]

end Disk

end GrammarArt.CommandLine
