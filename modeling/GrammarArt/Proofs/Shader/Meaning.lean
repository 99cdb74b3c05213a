import GrammarArt.Proofs.Shader.Language
import GrammarArt.Tree.Eval

/-! # What shader code means

The value of an expression, and what the statements of a text give names to, one after the
other.

Arithmetic, comparisons and functions act on every channel of a vector as the same operations
on numbers that colors are computed with; where one operand of an arithmetic operator is a
vector and the other one a number, the number stands for a vector of it.  Everything else has
to have operands of one shape.  An expression that is made of values of the wrong shape has no
value, and neither have statements that give a name out twice or another type than they say.
-/
namespace GrammarArt.Shader.Language

/-- A value. -/
inductive Value where
  | scalar (v : Float32)
  | vector (c : Color)
  /-- What comes of comparing the channels of two vectors. -/
  | mask (red green blue : Bool)
  | whole (n : Nat)
  /-- The block of inputs, as the rows of its variables. -/
  | inputs (rows : List (List Float32))
  | rows (rows : List (List Float32))
  | row (values : List Float32)
  deriving DecidableEq, Repr

/-! ### Operations on single channels -/

/-- The larger of two numbers, or the one that is a number. -/
def larger (a b : Float32) : Float32 := if b < a || b.isNaN then a else b

/-- A number moved between two others; what is not a number becomes zero. -/
def between (a least most : Float32) : Float32 :=
  if a.isNaN then 0 else if a < least then least else if most < a then most else a

/-- The weighted mean of two numbers, `w` being the weight of the second. -/
def weighted (a b w : Float32) : Float32 := a * (1 - w) + b * w

/-! ### Operations on values -/

namespace Value

/-- A function applied to a number, or in each channel. -/
def map (f : Float32 → Float32) : Value → Option Value
  | scalar a => some (scalar (f a))
  | vector a => some (vector (a.map f))
  | _ => none

/-- A function applied to two numbers, or in each channel of two vectors. -/
def map₂ (f : Float32 → Float32 → Float32) : Value → Value → Option Value
  | scalar a, scalar b => some (scalar (f a b))
  | vector a, vector b => some (vector (Color.map₂ f a b))
  | _, _ => none

/-- A function applied to three numbers, or in each channel of three vectors. -/
def map₃ (f : Float32 → Float32 → Float32 → Float32) : Value → Value → Value → Option Value
  | scalar a, scalar b, scalar c => some (scalar (f a b c))
  | vector a, vector b, vector c => some (vector (Color.map₃ f a b c))
  | _, _, _ => none

/-- A function applied to two numbers, or in each channel where a number may stand for a
vector of it. -/
def broadcast (f : Float32 → Float32 → Float32) : Value → Value → Option Value
  | scalar a, vector b => map₂ f (vector (.gray a)) (vector b)
  | vector a, scalar b => map₂ f (vector a) (vector (.gray b))
  | a, b => map₂ f a b

/-- A comparison of the channels of two vectors. -/
def compare (f : Float32 → Float32 → Bool) : Value → Value → Option Value
  | vector a, vector b => some (mask (f a.red b.red) (f a.green b.green) (f a.blue b.blue))
  | _, _ => none

/-- The channels of `b` where the mask holds, and those of `a` elsewhere. -/
def select : Value → Value → Value → Option Value
  | vector a, vector b, mask red green blue => some (vector
      ⟨if red then b.red else a.red, if green then b.green else a.green,
        if blue then b.blue else a.blue⟩)
  | _, _, _ => none

/-- The component of a vector that belongs to an axis. -/
def component (axis : Axis) (c : Color) : Float32 :=
  match axis with
  | .x => c.red
  | .y => c.green
  | .z => c.blue

/-- The field of a value. -/
def field : Value → String → Option Value
  | vector c, name => do
    let axis ← [Axis.x, Axis.y, Axis.z].find? fun axis => axis.text = name
    return scalar (component axis c)
  | inputs values, name => if name = "vars" then some (rows values) else none
  | _, _ => none

/-- The value in some place of a list of values. -/
def item : Value → Value → Option Value
  | rows values, whole n => (values[n]?).map row
  | row values, whole n => (values[n]?).map scalar
  | _, _ => none

end Value

end GrammarArt.Shader.Language

namespace GrammarArt.Shader

open GrammarArt.Shader.Language

/-- What an operator computes. -/
def Operator.apply : Operator → Value → Value → Option Value
  | add => Value.broadcast fun a b => a + b
  | sub => Value.broadcast fun a b => a - b
  | mul => Value.broadcast fun a b => a * b
  | div => Value.broadcast fun a b => a / b
  | rem => Value.broadcast Binary32.remainder
  | less => Value.compare fun a b => a < b
  | equal => Value.compare fun a b => a == b

/-- What a function computes. -/
def Function.apply : Function → List Value → Option Value
  | sin, [a] => a.map Float32.sin
  | cos, [a] => a.map Float32.cos
  | tan, [a] => a.map Float32.tan
  | exp, [a] => a.map Float32.exp
  | sqrt, [a] => a.map Float32.sqrt
  | max, [a, b] => a.map₂ larger b
  | select, [a, b, c] => a.select b c
  | mix, [a, b, c] => a.map₃ weighted b c
  | clamp, [a, b, c] => a.map₃ between b c
  | vec3, [.scalar a] => some (.vector (.gray a))
  | vec3, [.scalar a, .scalar b, .scalar c] => some (.vector ⟨a, b, c⟩)
  | _, _ => none

namespace Language

/-- The functions. -/
def functions : List Function :=
  [.sin, .cos, .tan, .exp, .sqrt, .max, .select, .mix, .clamp, .vec3]

/-- The values of the names that are bound. -/
abbrev Environment := String → Option Value

mutual

/-- The value of an expression. -/
def Expr.eval (env : Environment) : Expr → Option Value
  | .name text => env text
  | .whole n => some (.whole n)
  | .float v => some (.scalar v)
  | .member a field => do (← a.eval env).field field
  | .index a i => do (← a.eval env).item (← i.eval env)
  | .negate a => do (← a.eval env).map fun v => -v
  | .infixed op a b => do op.apply (← a.eval env) (← b.eval env)
  | .call function args => do
    let f ← functions.find? fun f => f.text = function
    f.apply (← evalAll env args)

/-- The values of some expressions. -/
def evalAll (env : Environment) : List Expr → Option (List Value)
  | [] => some []
  | e :: es => do return (← e.eval env) :: (← evalAll env es)

end

/-! ### Execution -/

/-- The names that are bound after a value was given one more name. -/
def bound (env : Environment) (name : String) (value : Value) : Environment := fun name' =>
  if name' = name then some value else env name'

/-- The names that are bound after a statement. -/
def Binding.execute (env : Environment) (binding : Binding) : Option Environment := do
  let value ← binding.value.eval env
  match value, env binding.name with
  | .vector _, none =>
    if binding.type = vectorType then some (bound env binding.name value) else none
  | _, _ => none

/-- The names that are bound after a text was read and its statements were executed in
order. -/
def run? (env : Environment) (text : String) : Option Environment := do
  (← read? text).foldlM Binding.execute env

/-- The rows of four variables each, the last one being cut off behind the last variable. -/
def feedRows (feed : Feed) : List (List Float32) :=
  (List.range 3).map fun i => (feed.values.drop (4 * i)).take 4

/-- The names that are bound before the first statement. -/
def arguments (point : Point) (feed : Feed) : Environment := fun name =>
  if name = pointName then some (.vector ⟨point.x, point.y, point.t⟩)
  else if name = paramsName then some (.inputs (feedRows feed))
  else none

end Language

end GrammarArt.Shader
