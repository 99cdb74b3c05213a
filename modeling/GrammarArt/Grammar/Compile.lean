import GrammarArt.Choice
import GrammarArt.Grammar.Definition

/-! # From a text to a grammar

When all definitions are read, their names are resolved: the name of a production is a
kind of node or else a declared symbol, and an argument is a declared symbol or a number.
Then every node has as many symbols as its kind has children and no more numbers than it
has parameters, every symbol a positive finite total weight, and the terminal symbol only
nodes without children.
-/
namespace GrammarArt

namespace Grammar

/-- The first symbol of a list that is not among the declared ones. -/
def undeclared? (declared : List String) (symbols : List String) : Option String :=
  symbols.find? fun symbol => symbol ∉ declared

/-- A production that makes a node. -/
def resolveNode (declared : List String) (kind : Kind) (p : RawProduction) :
    Except GrammarFault Production :=
  let symbols := Argument.symbols p.args
  let literals := (Argument.literals p.args).length
  let most := kind.parameters.length
  if symbols.length ≠ kind.arity ∨ most < literals then
    .error (.arity p.name (kind.arity + if most < literals then most else 0) p.args.length)
  else match undeclared? declared symbols with
    | some symbol => .error (.unknownSymbol symbol)
    | none => .ok ⟨.node kind, p.args, p.weight⟩

/-- A production with its name resolved.  A name of a kind is that kind, even where a symbol
of this name is declared. -/
def resolve (declared : List String) (p : RawProduction) : Except GrammarFault Production :=
  match Kind.ofName? p.name with
  | some kind => resolveNode declared kind p
  | none =>
    if p.name ∉ declared then .error (.unknownKind p.name)
    else if p.args ≠ [] then .error (.malformed (.aliasArguments p.name))
    else .ok ⟨.alias p.name, [], p.weight⟩

/-- Productions with their names resolved. -/
def resolveAll (declared : List String) :
    List RawProduction → Except GrammarFault (List Production)
  | [] => .ok []
  | p :: ps =>
    match resolve declared p with
    | .error e => .error e
    | .ok production =>
      match resolveAll declared ps with
      | .error e => .error e
      | .ok productions => .ok (production :: productions)

/-- The rule of a definition. -/
def resolveRule (declared : List String) (d : Definition) : Except GrammarFault Rule :=
  match resolveAll declared d.productions with
  | .error e => .error e
  | .ok productions =>
    let total := GrammarArt.totalWeight (productions.map Production.weight)
    if !(0 < total && total.isFinite) then .error (.totalWeight total d.symbol)
    else if d.symbol = terminalSymbol ∧ !productions.all Production.isTerminal then
      .error (.nonTerminalFallback d.symbol)
    else .ok ⟨d.symbol, productions⟩

/-- The rules of definitions. -/
def resolveRules (declared : List String) : List Definition → Except GrammarError (List Rule)
  | [] => .ok []
  | d :: ds =>
    match resolveRule declared d with
    | .error e => .error (.located d.line e)
    | .ok rule =>
      match resolveRules declared ds with
      | .error e => .error e
      | .ok rules => .ok (rule :: rules)

/-- The grammar of definitions. -/
def ofDefinitions (ds : List Definition) : Except GrammarError Grammar :=
  match resolveRules (ds.map Definition.symbol) ds with
  | .error e => .error e
  | .ok [] => .error .empty
  | .ok (first :: others) => .ok ⟨first, others⟩

/-- The grammar that a text denotes. -/
def compile (text : String) : Except GrammarError Grammar :=
  match Definition.readAll 1 [] (text.toList.splitOn '\n') with
  | .error e => .error e
  | .ok definitions => ofDefinitions definitions

end Grammar

end GrammarArt
