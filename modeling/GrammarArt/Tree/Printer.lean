import GrammarArt.Binary32.Printer
import GrammarArt.Tree.Basic

/-! # Canonical text of a tree

A node is written as the name of its kind, followed in parentheses by its children and
then its parameters; a node with neither is its name alone.  Every parameter is written,
also one that was drawn at random, so the text determines the tree up to its identifiers.
-/
namespace GrammarArt

/-- A name applied to arguments, or alone if there are none. -/
def applied (name : List Char) (args : List (List Char)) : List Char :=
  if args = [] then name else name ++ '(' :: (List.intercalate [',', ' '] args ++ [')'])

namespace Tree

/-- The canonical text, as a list of characters. -/
def text : Tree → List Char :=
  fold fun _ kind parameters children =>
    applied kind.name.toList
      (children ++ parameters.map fun v => (Binary32.print Binary32.canonical v).toList)

/-- The canonical text of a tree. -/
def render (tree : Tree) : String := String.ofList tree.text

end Tree

end GrammarArt
