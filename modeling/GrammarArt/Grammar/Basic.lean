import GrammarArt.Kind

/-! # Weighted grammars

A grammar is a list of rules, each with a symbol and the productions it expands by.  A
production either makes a node of some kind, with symbols for its children and numbers for
its first parameters, or stands for another symbol.  The first rule is the one a derivation
starts from by default.
-/
namespace GrammarArt

/-- An argument of a production. -/
inductive Argument where
  /-- A child is derived from this symbol. -/
  | symbol (name : String)
  /-- The next parameter is this number. -/
  | literal (value : Float32)
  deriving DecidableEq, BEq, Repr

/-- What a production makes. -/
inductive Target where
  | node (kind : Kind)
  /-- Whatever this symbol makes. -/
  | alias (symbol : String)
  deriving DecidableEq, BEq, Repr

/-- A weighted way to expand a symbol. -/
structure Production where
  target : Target
  args : List Argument
  weight : Float32
  deriving DecidableEq, BEq, Repr

/-- The symbols among arguments. -/
def Argument.symbols (args : List Argument) : List String :=
  args.filterMap fun
    | symbol name => some name
    | literal _ => none

/-- The numbers among arguments. -/
def Argument.literals (args : List Argument) : List Float32 :=
  args.filterMap fun
    | symbol _ => none
    | literal value => some value

namespace Production

/-- The symbols that children are derived from. -/
def symbols (p : Production) : List String := Argument.symbols p.args

/-- The numbers that the first parameters are given. -/
def literals (p : Production) : List Float32 := Argument.literals p.args

/-- Whether a production makes a node without children. -/
def isTerminal (p : Production) : Bool :=
  match p.target with
  | .node kind => kind.arity = 0
  | .alias _ => false

end Production

/-- A symbol and its productions. -/
structure Rule where
  symbol : String
  productions : List Production
  deriving DecidableEq, BEq, Repr

/-- A grammar: at least one rule. -/
structure Grammar where
  first : Rule
  others : List Rule
  deriving DecidableEq, BEq, Repr

namespace Grammar

/-- The symbol to expand when the depth is used up, in grammars that have it. -/
def terminalSymbol : String := "Z"

/-- All rules, in the order in which they were declared. -/
def rules (g : Grammar) : List Rule := g.first :: g.others

/-- The declared symbols. -/
def symbols (g : Grammar) : List String := g.rules.map Rule.symbol

/-- The symbol that was declared first. -/
def start (g : Grammar) : String := g.first.symbol

/-- The productions of a symbol, if it is declared. -/
def productions? (g : Grammar) (symbol : String) : Option (List Production) :=
  (g.rules.find? fun rule => rule.symbol = symbol).map Rule.productions

/-- Whether a symbol is declared. -/
def declares (g : Grammar) (symbol : String) : Bool := symbol ∈ g.symbols

/-- The variables that some production makes a node of, in the order of their slots. -/
def usedVariables (g : Grammar) : List Variable :=
  Variable.all.filter fun v =>
    g.rules.any fun rule => rule.productions.any fun p => p.target = .node (.var v)

end Grammar

end GrammarArt
