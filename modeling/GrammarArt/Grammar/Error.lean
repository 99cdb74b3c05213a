import GrammarArt.Binary32.Printer

/-! # What can be wrong with a grammar

Every fault but one belongs to a line of the text, the line of the definition it is in.
-/
namespace GrammarArt

/-- How a definition fails to have the form of one.  Productions are counted from one. -/
inductive Malformation where
  | noSeparator
  | secondSeparator
  | symbolName (name : String)
  | emptyProduction (index : Nat)
  | noWeight (index : Nat) (source : String)
  | unbalanced (index : Nat) (head : String)
  | nested (index : Nat) (head : String)
  | noArguments (index : Nat) (head : String)
  | argument (index : Nat) (arg head : String)
  | productionName (index : Nat) (name : String)
  /-- A symbol with arguments, where only kinds of nodes have any. -/
  | aliasArguments (symbol : String)
  deriving DecidableEq, Repr

/-- What is wrong with a definition. -/
inductive GrammarFault where
  | malformed (form : Malformation)
  | emptySymbol (symbol : String)
  | unknownKind (name : String)
  | unknownSymbol (symbol : String)
  | arity (name : String) (count found : Nat)
  /-- A weight that is no finite number, or is negative. -/
  | weight (text : String)
  /-- The weights of a symbol with a total that is not positive or not finite. -/
  | totalWeight (total : Float32) (symbol : String)
  | duplicate (symbol : String)
  /-- Something else than a node without children, under the terminal symbol. -/
  | nonTerminalFallback (symbol : String)
  deriving DecidableEq, Repr

/-- What is wrong with a grammar. -/
inductive GrammarError where
  | located (line : Nat) (fault : GrammarFault)
  /-- There is no definition. -/
  | empty
  deriving DecidableEq, Repr

/-- The text of a malformation. -/
def Malformation.message : Malformation → String
  | noSeparator => "expected 'SYMBOL :: production | ...'"
  | secondSeparator => "more than one '::'"
  | symbolName name => s!"invalid symbol name '{name}'"
  | emptyProduction index => s!"production {index} is empty"
  | noWeight index source => s!"production {index}: '{source}' is missing ':weight'"
  | unbalanced index head => s!"production {index}: unbalanced parentheses in '{head}'"
  | nested index head => s!"production {index}: nested parentheses in '{head}'"
  | noArguments index head => s!"production {index}: empty argument list in '{head}'"
  | argument index arg head => s!"production {index}: invalid argument '{arg}' in '{head}'"
  | productionName index name => s!"production {index}: invalid name '{name}'"
  | aliasArguments symbol => s!"symbol '{symbol}' cannot take arguments"

/-- The text of a fault. -/
def GrammarFault.message : GrammarFault → String
  | malformed form => form.message
  | emptySymbol symbol => s!"symbol '{symbol}' has no productions"
  | unknownKind name => s!"unknown node kind '{name}'"
  | unknownSymbol symbol => s!"unknown symbol '{symbol}'"
  | arity name count found => s!"'{name}' takes {count} arguments, found {found}"
  | weight text => s!"invalid weight '{text}'"
  | totalWeight total symbol =>
    s!"invalid weight '{Binary32.print Binary32.canonical total} (total of '{symbol}')'"
  | duplicate symbol => s!"symbol '{symbol}' is defined twice"
  | nonTerminalFallback symbol =>
    s!"terminal symbol '{symbol}' may only list argument-free node kinds"

/-- The text of a grammar error. -/
def GrammarError.message : GrammarError → String
  | located line fault => s!"line {line}: {fault.message}"
  | empty => "grammar defines no symbols"

end GrammarArt
