import GrammarArt.Shader.Syntax
import GrammarArt.Tree.Eval

/-! # Shader code of a tree

Every node becomes one statement that names its color, children before their parents; the
term of a node computes from the names of its children what `combine` computes from their
colors.
-/
namespace GrammarArt.Shader

/-- A vector of one value in all components. -/
def splat (a : Term) : Term := .call₁ .vec3 a

/-- The place in `[0, 1]` of a value in `[-1, 1]`. -/
def place (a : Term) : Term := .infixed .mul (.infixed .add a (.literal 1)) (.literal 0.5)

/-- A wave of a value that is scaled and then shifted. -/
def wave (f : Function) (a : Nat) (frequency phase : Float32) : Term :=
  .call₁ f (.infixed .add (.infixed .mul (.node a) (.literal frequency)) (.literal phase))

/-- The exponential, moved from its range back to `[-1, 1]`. -/
def expTerm (a : Term) : Term :=
  let least := Term.literal expRange.1
  let scaled := Term.infixed .mul (.literal 2) (.infixed .sub (.call₁ .exp a) least)
  .infixed .sub (.infixed .div scaled (.infixed .sub (.literal expRange.2) least)) (.literal 1)

/-- The square root of a place. -/
def sqrtTerm (a : Term) : Term :=
  let root := Term.call₁ .sqrt (.call₂ .max (place a) (splat (.literal 0)))
  .infixed .sub (.infixed .mul root (.literal 2)) (.literal 1)

/-- The remainder.  The divisor is replaced where it is zero, so that no division by zero is
written, and there the dividend is taken. -/
def modTerm (a b : Term) : Term :=
  let isZero := Term.infixed .equal b (splat (.literal 0))
  let divisor := Term.call₃ .select b (splat (.literal 1)) isZero
  .call₃ .select (.infixed .rem a divisor) a isZero

/-- The term of a node, from the identifiers of its children, before it is moved into
`[-1, 1]`. -/
def nodeTerm : Kind → List Float32 → List Nat → Term
  | .x, _, _ => splat (.point .x)
  | .y, _, _ => splat (.point .y)
  | .t, _, _ => splat (.point .z)
  | .var v, _, _ => splat (.feed v.slot)
  | .bw, [value], _ => splat (.literal value)
  | .rgb, [red, green, blue], _ => .call₃ .vec3 (.literal red) (.literal green) (.literal blue)
  | .sin, [frequency, phase], [a] => wave .sin a frequency phase
  | .cos, [frequency, phase], [a] => wave .cos a frequency phase
  | .tan, [frequency, phase], [a] => wave .tan a frequency phase
  | .exp, _, [a] => expTerm (.node a)
  | .sqrt, _, [a] => sqrtTerm (.node a)
  | .sum, _, [a, b] => .infixed .mul (.infixed .add (.node a) (.node b)) (.literal 0.5)
  | .mult, _, [a, b] => .infixed .mul (.node a) (.node b)
  | .mod, _, [a, b] => modTerm (.node a) (.node b)
  | .mix, _, [a, b, c] => .call₃ .mix (.node b) (.node c) (place (.node a))
  | .level, [threshold], [a, b, c] =>
    .call₃ .select (.node c) (.node b) (.infixed .less (.node a) (splat (.literal threshold)))
  | .triple, _, [a, b, c] => .call₃ .vec3 (.channel a .x) (.channel b .y) (.channel c .z)
  | _, _, _ => splat (.literal 0)

/-- The statement of a node. -/
def nodeStatement (id : Nat) (kind : Kind) (parameters : List Float32) (children : List Nat) :
    Statement :=
  ⟨id, .call₃ .clamp (nodeTerm kind parameters children) (splat (.negate (.literal 1)))
    (splat (.literal 1))⟩

end GrammarArt.Shader

namespace GrammarArt.Tree

open Shader

/-- The statements of a tree, and the identifier of its root. -/
def codeAndRoot : Tree → List Statement × Nat :=
  fold fun id kind parameters children =>
    (children.flatMap (·.1) ++ [nodeStatement id kind parameters (children.map (·.2))], id)

/-- The statements of a tree, one for each node. -/
def code (tree : Tree) : List Statement := tree.codeAndRoot.1

/-- The text of the statements of a tree. -/
def codeText (tree : Tree) : String := String.join (tree.code.map Statement.render)

/-- The name that the statements of a tree give to its color. -/
def codeName (tree : Tree) : String := nodeName tree.id

/-- A text with the statements of a tree behind it, and the name of its color. -/
def appendCode (tree : Tree) (text : String) : String × String :=
  (text ++ tree.codeText, tree.codeName)

end GrammarArt.Tree
