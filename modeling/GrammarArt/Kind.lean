import GrammarArt.Variable

/-! # Kinds of nodes

The seventeen kinds of nodes an expression is built of, with their names, their numbers of
children and their parameters.  A kind's parameters are numbers of its own, each with the
range from which a derivation draws it.
-/
namespace GrammarArt

/-- The kind of a node. -/
inductive Kind where
  | x
  | y
  | t
  | bw
  | rgb
  | var (v : Variable)
  | sin
  | cos
  | tan
  | exp
  | sqrt
  | sum
  | mult
  | mod
  | mix
  | level
  | triple
  deriving DecidableEq, Repr

/-- A parameter of a kind, drawn from `[low, high)` where a grammar leaves it open. -/
structure Parameter where
  name : String
  low : Float32
  high : Float32
  deriving DecidableEq, Repr

namespace Kind

/-- The kinds that are not variables. -/
def fixed : List Kind :=
  [x, y, t, bw, rgb, sin, cos, tan, exp, sqrt, sum, mult, mod, mix, level, triple]

/-- The name of a kind in grammars and expressions. -/
def name : Kind → String
  | x => "x"
  | y => "y"
  | t => "t"
  | bw => "bw"
  | rgb => "rgb"
  | var v => v.name
  | sin => "sin"
  | cos => "cos"
  | tan => "tan"
  | exp => "exp"
  | sqrt => "sqrt"
  | sum => "sum"
  | mult => "mult"
  | mod => "mod"
  | mix => "mix"
  | level => "level"
  | triple => "triple"

/-- The kind of a name. -/
def ofName? (s : String) : Option Kind :=
  (fixed.find? fun k => k.name = s).or ((Variable.ofName? s).map var)

/-- The number of children of a node of a kind. -/
def arity : Kind → Nat
  | x | y | t | bw | rgb | var _ => 0
  | sin | cos | tan | exp | sqrt => 1
  | sum | mult | mod => 2
  | mix | level | triple => 3

/-- The circle constant as a single. -/
def pi : Float32 := 3.14159265358979323846264338327950288

/-- The parameters of a kind, in the order in which they are written. -/
def parameters : Kind → List Parameter
  | bw => [⟨"value", -1, 1⟩]
  | rgb => [⟨"r", -1, 1⟩, ⟨"g", -1, 1⟩, ⟨"b", -1, 1⟩]
  | sin | cos | tan => [⟨"frequency", 1, 6⟩, ⟨"phase", 0, pi⟩]
  | level => [⟨"threshold", -1, 1⟩]
  | _ => []

/-- Whether nodes of a kind depend on the feed. -/
def readsVariables : Kind → Bool
  | var _ => true
  | _ => false

theorem ofName?_name (k : Kind) : ofName? k.name = some k := by
  cases k with
  | var v => cases v <;> decide
  | _ => decide

theorem ofName?_eq_some_iff {s : String} {k : Kind} : ofName? s = some k ↔ k.name = s := by
  constructor
  · intro h
    rcases Option.or_eq_some_iff.mp h with hfixed | ⟨-, hvar⟩
    · have hname := List.find?_some hfixed
      exact of_decide_eq_true hname
    · obtain ⟨v, hv, rfl⟩ := Option.map_eq_some_iff.mp hvar
      exact Variable.ofName?_eq_some_iff.mp hv
  · rintro rfl
    exact ofName?_name k

theorem name_injective {k l : Kind} (h : k.name = l.name) : k = l :=
  Option.some.inj ((ofName?_eq_some_iff.mpr h).symm.trans (ofName?_name l))

end Kind

end GrammarArt
