import GrammarArt.Binary32.Basic
import GrammarArt.Color
import GrammarArt.Tree.Basic

/-! # The color of a tree at a point

A tree is evaluated from the terminals up; the color of a node is computed from the colors
of its children by `combine`, whose every result is moved into `[-1, 1]`.  `combine` sees a
node as a kind, parameters and arguments, so that a tree (`Tree.eval`) and a register
program made from it compute with the same operations.
-/
namespace GrammarArt

/-- A place in the unit square at a time. -/
structure Point where
  x : Float32
  y : Float32
  t : Float32
  deriving DecidableEq, Repr

/-- The base of the natural logarithm as a single. -/
def euler : Float32 := 2.71828182845904523536028747135266250

/-- The least and the greatest value of `exp` on `[-1, 1]`. -/
def expRange : Float32 × Float32 := (1 / euler, euler)

/-- The exponential, moved from its range back to `[-1, 1]`. -/
def scaledExp (a : Float32) : Float32 :=
  2 * (a.exp - expRange.1) / (expRange.2 - expRange.1) - 1

/-- The square root of the place of a number in `[-1, 1]`; places below zero count as zero. -/
def scaledSqrt (a : Float32) : Float32 :=
  let place := (a + 1) * 0.5
  (if 0 < place then place else 0).sqrt * 2 - 1

/-- The remainder of a truncated division; division by zero leaves the dividend. -/
def safeMod (a b : Float32) : Float32 := if b == 0 then a else Binary32.remainder a b

/-- A value between `b` and `c`, by the place of `a` in `[-1, 1]`. -/
def blend (a b c : Float32) : Float32 :=
  let weight := (a + 1) * 0.5
  (1 - weight) * b + weight * c

/-- The value of a node before it is moved into `[-1, 1]`. -/
def combineRaw (point : Point) (feed : Feed) :
    Kind → List Float32 → List Color → Color
  | .x, _, _ => .gray point.x
  | .y, _, _ => .gray point.y
  | .t, _, _ => .gray point.t
  | .var v, _, _ => .gray (feed.get v)
  | .bw, [value], _ => .gray value
  | .rgb, [red, green, blue], _ => ⟨red, green, blue⟩
  | .sin, [frequency, phase], [a] => a.map fun a => (a * frequency + phase).sin
  | .cos, [frequency, phase], [a] => a.map fun a => (a * frequency + phase).cos
  | .tan, [frequency, phase], [a] => a.map fun a => (a * frequency + phase).tan
  | .exp, _, [a] => a.map scaledExp
  | .sqrt, _, [a] => a.map scaledSqrt
  | .sum, _, [a, b] => Color.map₂ (fun a b => (a + b) * 0.5) a b
  | .mult, _, [a, b] => Color.map₂ (fun a b => a * b) a b
  | .mod, _, [a, b] => Color.map₂ safeMod a b
  | .mix, _, [a, b, c] => Color.map₃ blend a b c
  | .level, [threshold], [a, b, c] =>
    Color.map₃ (fun a b c => if a < threshold then b else c) a b c
  | .triple, _, [a, b, c] => ⟨a.red, b.green, c.blue⟩
  | _, _, _ => .zero

/-- The color of a node of some kind, parameters and arguments. -/
def combine (point : Point) (feed : Feed) (kind : Kind) (parameters : List Float32)
    (args : List Color) : Color :=
  (combineRaw point feed kind parameters args).map clampUnit

namespace Tree

/-- The value of a tree, by any function of kinds, parameters and arguments. -/
def evalBy {α : Type} (f : Kind → List Float32 → List α → α) : Tree → α :=
  fold fun _ kind parameters args => f kind parameters args

/-- The color of a tree at a point. -/
def eval (tree : Tree) (point : Point) (feed : Feed) : Color :=
  tree.evalBy (combine point feed)

end Tree

end GrammarArt
