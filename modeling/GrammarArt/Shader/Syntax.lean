import GrammarArt.Binary32.Printer

/-! # Shader expressions

The part of the shading language that the code of a tree is written in, as terms
(`Term`), and their text (`Term.render`).

A term is written with as few parentheses as its operators allow: `*`, `/` and `%` bind
closer than `+` and `-`, these closer than comparisons, and operators of one rank group to
the left.  A literal is written so that it is read as a number with a fraction, and a
negative one always stands in parentheses.
-/
namespace GrammarArt.Shader

/-- A component of a vector. -/
inductive Axis where
  | x
  | y
  | z
  deriving DecidableEq, Repr

/-- An infix operator. -/
inductive Operator where
  | add
  | sub
  | mul
  | div
  | rem
  | less
  | equal
  deriving DecidableEq, Repr

/-- A function of the language. -/
inductive Function where
  | sin
  | cos
  | tan
  | exp
  | sqrt
  | max
  | select
  | mix
  | clamp
  | vec3
  deriving DecidableEq, Repr

/-- A term. -/
inductive Term where
  /-- The color of the node with an identifier. -/
  | node (id : Nat)
  /-- One channel of the color of a node. -/
  | channel (id : Nat) (axis : Axis)
  /-- A coordinate of the point. -/
  | point (axis : Axis)
  /-- The variable in a slot. -/
  | feed (slot : Nat)
  | literal (value : Float32)
  | negate (a : Term)
  | infixed (op : Operator) (a b : Term)
  | call₁ (f : Function) (a : Term)
  | call₂ (f : Function) (a b : Term)
  | call₃ (f : Function) (a b c : Term)
  deriving DecidableEq, Repr

/-- The statement that names the color of a node. -/
structure Statement where
  id : Nat
  value : Term
  deriving DecidableEq, Repr

/-! ### Text -/

/-- The letter of an axis. -/
def Axis.text : Axis → String
  | x => "x"
  | y => "y"
  | z => "z"

/-- The sign of an operator. -/
def Operator.text : Operator → String
  | add => "+"
  | sub => "-"
  | mul => "*"
  | div => "/"
  | rem => "%"
  | less => "<"
  | equal => "=="

/-- How close an operator binds. -/
def Operator.rank : Operator → Nat
  | less | equal => 0
  | add | sub => 1
  | mul | div | rem => 2

/-- The name of a function. -/
def Function.text : Function → String
  | sin => "sin"
  | cos => "cos"
  | tan => "tan"
  | exp => "exp"
  | sqrt => "sqrt"
  | max => "max"
  | select => "select"
  | mix => "mix"
  | clamp => "clamp"
  | vec3 => "vec3<f32>"

/-- The name of the color of a node. -/
def nodeName (id : Nat) : String := s!"n{id}"

/-- The name of the point among the arguments of the art function. -/
def pointName : String := "p"

/-- The name of the block that holds the inputs of a shader. -/
def paramsName : String := "params"

/-- The text of a literal.  Numbers that are not finite have none; they are written so that
they are no name either. -/
def literalText (v : Float32) : String :=
  let digits := Binary32.print Binary32.literal v
  let text := if v.isFinite then digits else digits ++ ".0"
  if Binary32.negative v then s!"({text})" else text

/-- The text of a term where only operators of at least some rank may stand without
parentheses.  A comparison has no comparison as an operand, and elsewhere the right operand
of an operator is of a higher rank. -/
def Term.render : Term → Nat → String
  | node id, _ => nodeName id
  | channel id axis, _ => s!"{nodeName id}.{axis.text}"
  | point axis, _ => s!"{pointName}.{axis.text}"
  | feed slot, _ => s!"{paramsName}.vars[{slot / 4}][{slot % 4}]"
  | literal value, _ => literalText value
  | negate a, _ => "-" ++ a.render 3
  | infixed op a b, rank =>
    let left := a.render (Nat.max op.rank 1)
    let text := s!"{left} {op.text} {b.render (op.rank + 1)}"
    if op.rank < rank then s!"({text})" else text
  | call₁ f a, _ => s!"{f.text}({a.render 0})"
  | call₂ f a b, _ => s!"{f.text}({a.render 0}, {b.render 0})"
  | call₃ f a b c, _ => s!"{f.text}({a.render 0}, {b.render 0}, {c.render 0})"

/-- The line of a statement. -/
def Statement.render (s : Statement) : String :=
  s!"    let {nodeName s.id}: vec3<f32> = {s.value.render 0};\n"

end GrammarArt.Shader
