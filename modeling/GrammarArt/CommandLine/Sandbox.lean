import GrammarArt.CommandLine.Disk

/-! # Surroundings in memory

A `Sandbox` is a disk together with all that was printed: surroundings in which a command can
be run and looked at afterwards.
-/
namespace GrammarArt.CommandLine

/-- A disk, all that was printed and reported, and the seed for those who have none. -/
structure Sandbox where
  disk : Disk
  printed : String
  reported : String
  seed : UInt32

namespace Sandbox

/-- A sandbox with some texts in it. -/
def ofTexts (texts : List (String × String)) : Sandbox :=
  ⟨texts.foldl (fun disk (path, content) => disk.withText path content) .initial, "", "", 0⟩

/-- The sandbox after a change of its disk, unless the change fails. -/
def change (f : Disk → Except FileError Disk) : StateM Sandbox (Except FileError Unit) :=
  fun sandbox =>
    match f sandbox.disk with
    | .error e => (.error e, sandbox)
    | .ok disk => (.ok (), { sandbox with disk := disk })

end Sandbox

instance : Host (StateM Sandbox) where
  print text sandbox := ((), { sandbox with printed := sandbox.printed ++ text })
  report text sandbox := ((), { sandbox with reported := sandbox.reported ++ text })
  drawSeed sandbox := (sandbox.seed, sandbox)
  readText path sandbox := (sandbox.disk.readText path, sandbox)
  writeText path text := Sandbox.change fun disk => disk.write path (.text text)
  writeImage path frame := Sandbox.change fun disk => disk.write path (.image frame)
  makeDirectory path := Sandbox.change fun disk => disk.makeDirectory path

end GrammarArt.CommandLine
