import GrammarArt.Kind

/-! # Expression trees

A tree is built of terminals and of operations on one, two or three subtrees, each with
the parameters of its kind.  So a node has the shape of its kind by construction.  The
other view of a node, as an identifier, a kind, a list of children and a list of
parameters, is given by `id`, `kind`, `children` and `parameters`; `make` is the way back,
and refuses parts of another shape (`make_eq_ok_iff`).

`induct` and `fold_eq` are what proofs about all trees need: induction over children, and
a recursion that sees only the other view.
-/
namespace GrammarArt

/-- A node without children. -/
inductive Terminal where
  | x
  | y
  | t
  | bw (value : Float32)
  | rgb (red green blue : Float32)
  | var (v : Variable)
  deriving DecidableEq, BEq, Repr

/-- An operation on one subtree. -/
inductive Unary where
  | sin (frequency phase : Float32)
  | cos (frequency phase : Float32)
  | tan (frequency phase : Float32)
  | exp
  | sqrt
  deriving DecidableEq, BEq, Repr

/-- An operation on two subtrees. -/
inductive Binary where
  | sum
  | mult
  | mod
  deriving DecidableEq, BEq, Repr

/-- An operation on three subtrees. -/
inductive Ternary where
  | mix
  | level (threshold : Float32)
  | triple
  deriving DecidableEq, BEq, Repr

namespace Terminal

/-- The kind of node that a terminal makes. -/
def kind : Terminal → Kind
  | x => .x
  | y => .y
  | t => .t
  | bw _ => .bw
  | rgb _ _ _ => .rgb
  | var v => .var v

/-- The parameters of a terminal. -/
def parameters : Terminal → List Float32
  | bw value => [value]
  | rgb red green blue => [red, green, blue]
  | _ => []

end Terminal

namespace Unary

/-- The kind of node that an operation makes. -/
def kind : Unary → Kind
  | sin _ _ => .sin
  | cos _ _ => .cos
  | tan _ _ => .tan
  | exp => .exp
  | sqrt => .sqrt

/-- The parameters of an operation. -/
def parameters : Unary → List Float32
  | sin frequency phase | cos frequency phase | tan frequency phase => [frequency, phase]
  | _ => []

end Unary

namespace Binary

/-- The kind of node that an operation makes. -/
def kind : Binary → Kind
  | sum => .sum
  | mult => .mult
  | mod => .mod

/-- The parameters of an operation. -/
def parameters : Binary → List Float32
  | _ => []

end Binary

namespace Ternary

/-- The kind of node that an operation makes. -/
def kind : Ternary → Kind
  | mix => .mix
  | level _ => .level
  | triple => .triple

/-- The parameters of an operation. -/
def parameters : Ternary → List Float32
  | level threshold => [threshold]
  | _ => []

end Ternary

/-- An expression tree, its nodes identified by numbers. -/
inductive Tree where
  | terminal (id : Nat) (op : Terminal)
  | unary (id : Nat) (op : Unary) (a : Tree)
  | binary (id : Nat) (op : Binary) (a b : Tree)
  | ternary (id : Nat) (op : Ternary) (a b c : Tree)
  deriving DecidableEq, BEq, Repr

namespace Tree

/-! ### A node and its parts -/

/-- The identifier of the root. -/
def id : Tree → Nat
  | terminal id _ | unary id _ _ | binary id _ _ _ | ternary id _ _ _ _ => id

/-- The kind of the root. -/
def kind : Tree → Kind
  | terminal _ op => op.kind
  | unary _ op _ => op.kind
  | binary _ op _ _ => op.kind
  | ternary _ op _ _ _ => op.kind

/-- The parameters of the root. -/
def parameters : Tree → List Float32
  | terminal _ op => op.parameters
  | unary _ op _ => op.parameters
  | binary _ op _ _ => op.parameters
  | ternary _ op _ _ _ => op.parameters

/-- The subtrees of the root. -/
def children : Tree → List Tree
  | terminal _ _ => []
  | unary _ _ a => [a]
  | binary _ _ a b => [a, b]
  | ternary _ _ a b c => [a, b, c]

/-- A statement holds of all trees if it holds of every tree of whose children it holds. -/
theorem induct {P : Tree → Prop} (step : ∀ t : Tree, (∀ c ∈ t.children, P c) → P t)
    (t : Tree) : P t := by
  induction t with
  | terminal id op => exact step _ (by simp [children])
  | unary id op a iha => exact step _ (by simpa [children] using iha)
  | binary id op a b iha ihb => exact step _ (by simpa [children] using ⟨iha, ihb⟩)
  | ternary id op a b c iha ihb ihc =>
      exact step _ (by simpa [children] using ⟨iha, ihb, ihc⟩)

theorem length_children (t : Tree) : t.children.length = t.kind.arity := by
  cases t with
  | terminal _ op => cases op <;> rfl
  | unary _ op _ => cases op <;> rfl
  | binary _ op _ _ => cases op <;> rfl
  | ternary _ op _ _ _ => cases op <;> rfl

theorem length_parameters (t : Tree) : t.parameters.length = t.kind.parameters.length := by
  cases t with
  | terminal _ op => cases op <;> rfl
  | unary _ op _ => cases op <;> rfl
  | binary _ op _ _ => cases op <;> rfl
  | ternary _ op _ _ _ => cases op <;> rfl

/-- Why parts do not make a node. -/
inductive ShapeError where
  | children (kind : Kind)
  | parameters (kind : Kind)
  deriving DecidableEq, Repr

/-- The text of a shape error. -/
def ShapeError.message : ShapeError → String
  | children kind => s!"{kind.name} takes {kind.arity} children"
  | parameters kind => s!"{kind.name} takes {kind.parameters.length} parameters"

/-- The node of given parts, if they have the shape of the kind. -/
def ofParts? (id : Nat) : Kind → List Tree → List Float32 → Option Tree
  | .x, [], [] => some (terminal id .x)
  | .y, [], [] => some (terminal id .y)
  | .t, [], [] => some (terminal id .t)
  | .bw, [], [v] => some (terminal id (.bw v))
  | .rgb, [], [r, g, b] => some (terminal id (.rgb r g b))
  | .var v, [], [] => some (terminal id (.var v))
  | .sin, [a], [f, p] => some (unary id (.sin f p) a)
  | .cos, [a], [f, p] => some (unary id (.cos f p) a)
  | .tan, [a], [f, p] => some (unary id (.tan f p) a)
  | .exp, [a], [] => some (unary id .exp a)
  | .sqrt, [a], [] => some (unary id .sqrt a)
  | .sum, [a, b], [] => some (binary id .sum a b)
  | .mult, [a, b], [] => some (binary id .mult a b)
  | .mod, [a, b], [] => some (binary id .mod a b)
  | .mix, [a, b, c], [] => some (ternary id .mix a b c)
  | .level, [a, b, c], [v] => some (ternary id (.level v) a b c)
  | .triple, [a, b, c], [] => some (ternary id .triple a b c)
  | _, _, _ => none

/-- The node of given parts.  A wrong number of children is found before a wrong number of
parameters. -/
def make (id : Nat) (kind : Kind) (children : List Tree) (parameters : List Float32) :
    Except ShapeError Tree :=
  if children.length ≠ kind.arity then .error (.children kind)
  else match ofParts? id kind children parameters with
    | some t => .ok t
    | none => .error (.parameters kind)

theorem ofParts?_parts (t : Tree) : ofParts? t.id t.kind t.children t.parameters = some t := by
  cases t with
  | terminal _ op => cases op <;> rfl
  | unary _ op _ => cases op <;> rfl
  | binary _ op _ _ => cases op <;> rfl
  | ternary _ op _ _ _ => cases op <;> rfl

theorem parts_of_ofParts? {id : Nat} {kind : Kind} {children : List Tree}
    {parameters : List Float32} {t : Tree}
    (h : ofParts? id kind children parameters = some t) :
    t.id = id ∧ t.kind = kind ∧ t.children = children ∧ t.parameters = parameters := by
  unfold ofParts? at h
  split at h <;> cases h <;> exact ⟨rfl, rfl, rfl, rfl⟩

/-- **Parts make the node that has them, and no other.** -/
theorem make_eq_ok_iff {id : Nat} {kind : Kind} {children : List Tree}
    {parameters : List Float32} {t : Tree} :
    make id kind children parameters = .ok t ↔
      t.id = id ∧ t.kind = kind ∧ t.children = children ∧ t.parameters = parameters := by
  constructor
  · intro h
    unfold make at h
    split at h
    · cases h
    · split at h
      · rename_i heq
        cases h
        exact parts_of_ofParts? heq
      · cases h
  · rintro ⟨rfl, rfl, rfl, rfl⟩
    simp [make, length_children, ofParts?_parts]

/-! ### Recursion -/

/-- The value of a tree, computed from the identifier, the kind, the parameters and the
values of the children of each node. -/
def fold {α : Type} (f : Nat → Kind → List Float32 → List α → α) : Tree → α
  | terminal id op => f id op.kind op.parameters []
  | unary id op a => f id op.kind op.parameters [fold f a]
  | binary id op a b => f id op.kind op.parameters [fold f a, fold f b]
  | ternary id op a b c => f id op.kind op.parameters [fold f a, fold f b, fold f c]

theorem fold_eq {α : Type} (f : Nat → Kind → List Float32 → List α → α) (t : Tree) :
    t.fold f = f t.id t.kind t.parameters (t.children.map (fold f)) := by
  cases t <;> rfl

/-- The number of nodes. -/
def nodeCount : Tree → Nat := fold fun _ _ _ counts => counts.foldr (· + ·) 1

/-- The number of nodes on a longest way from the root to a terminal. -/
def depth : Tree → Nat := fold fun _ _ _ depths => 1 + depths.foldl max 0

/-- Whether any node depends on the feed. -/
def readsVariables : Tree → Bool :=
  fold fun _ kind _ reads => kind.readsVariables || reads.any fun r => r

/-- The identifiers and kinds of all nodes, children before their parents. -/
def postOrder : Tree → List (Nat × Kind) :=
  fold fun id kind _ orders => orders.flatten ++ [(id, kind)]

/-! ### Numbering -/

/-- The tree with its nodes numbered in post-order from `n` on, and the first number left. -/
def numberFrom (n : Nat) : Tree → Tree × Nat
  | terminal _ op => (terminal n op, n + 1)
  | unary _ op a =>
    let (a, n) := numberFrom n a
    (unary n op a, n + 1)
  | binary _ op a b =>
    let (a, n) := numberFrom n a
    let (b, n) := numberFrom n b
    (binary n op a b, n + 1)
  | ternary _ op a b c =>
    let (a, n) := numberFrom n a
    let (b, n) := numberFrom n b
    let (c, n) := numberFrom n c
    (ternary n op a b c, n + 1)

/-- The tree with its nodes numbered in post-order from zero on. -/
def numbered (t : Tree) : Tree := (numberFrom 0 t).1

/-- The greatest depth of a tree that is read or derived. -/
def maxDepth : Nat := 256

end Tree

end GrammarArt
