import GrammarArt.Choice
import GrammarArt.Grammar.Basic
import GrammarArt.Random
import GrammarArt.Tree.Basic

/-! # Deriving a tree from a grammar

A symbol is expanded by a production chosen at random by its weight.  Every expansion uses
up one unit of depth, also that of an alias, which makes no node.  When no depth is left,
a production of the terminal symbol is chosen, or, in a grammar without it, a production
of the symbol at hand that makes a node without children; so a derivation ends whatever the
grammar is.

A node's children are derived first; then its parameters are filled, with the numbers of
the production as far as they go and with random ones from there on.  Nodes are numbered in
post-order.
-/
namespace GrammarArt

/-- Why no tree was derived. -/
inductive DerivationError where
  | depthLimit (depth most : Nat)
  | unknownSymbol (symbol : String)
  /-- No depth is left, and the symbol has nothing to choose then. -/
  | depthExhausted (symbol : String)
  /-- A production does not fit its kind. -/
  | shape (error : Tree.ShapeError)
  deriving DecidableEq, Repr

/-- The text of a derivation error. -/
def DerivationError.message : DerivationError → String
  | depthLimit depth most => s!"depth {depth} exceeds the maximum of {most}"
  | unknownSymbol symbol => s!"unknown symbol '{symbol}'"
  | depthExhausted symbol =>
    s!"depth exhausted at '{symbol}', which has no argument-free production"
  | shape e => e.message

/-- A derived tree and the number of its nodes. -/
structure Derivation where
  root : Tree
  nodes : Nat
  deriving DecidableEq, BEq, Repr

namespace Derivation

/-- The greatest depth a derivation is given.  The tree can be one level deeper. -/
def maxDepth : Nat := Tree.maxDepth - 1

variable {σ : Type} [RandomSource σ]

/-- A computation that draws from a source and can fail; what was drawn stays drawn. -/
abbrev Drawing (σ α : Type) := σ → Except DerivationError α × σ

/-- One computation after another, unless the first one fails. -/
def Drawing.andThen {α β : Type} (first : Drawing σ α) (next : α → Drawing σ β) : Drawing σ β :=
  fun source =>
    match first source with
    | (.error e, source) => (.error e, source)
    | (.ok a, source) => next a source

/-- A production of a symbol, chosen by weight from those that are eligible. -/
def pick (g : Grammar) (symbol : String) (eligible : Production → Bool) :
    Drawing σ Production := fun source =>
  match g.productions? symbol with
  | none => (.error (.unknownSymbol symbol), source)
  | some productions =>
    let candidates := productions.filter eligible
    let (u, source) := RandomSource.next source
    match (chooseWeighted (candidates.map Production.weight) u).bind (candidates[·]?) with
    | some production => (.ok production, source)
    | none => (.error (.depthExhausted symbol), source)

/-- The parameters of a kind: given numbers as far as they go, then random ones. -/
def fillParameters : List Parameter → List Float32 → σ → List Float32 × σ
  | [], _, source => ([], source)
  | _ :: parameters, value :: values, source =>
    let (rest, source) := fillParameters parameters values source
    (value :: rest, source)
  | p :: parameters, [], source =>
    let (value, source) := RandomSource.range p.low p.high source
    let (rest, source) := fillParameters parameters [] source
    (value :: rest, source)

/-- The node of a kind with given children, its parameters filled. -/
def buildNode (kind : Kind) (literals : List Float32) (children : List Tree) :
    Drawing σ Tree := fun source =>
  let (parameters, source) := fillParameters kind.parameters literals source
  match Tree.make 0 kind children parameters with
  | .ok tree => (.ok tree, source)
  | .error e => (.error (.shape e), source)

/-- Trees for a list of symbols, one after the other. -/
def expandAll (expand : String → Drawing σ Tree) : List String → Drawing σ (List Tree)
  | [], source => (.ok [], source)
  | symbol :: symbols, source =>
    Drawing.andThen (expand symbol) (fun tree =>
      Drawing.andThen (expandAll expand symbols) fun trees source =>
        (.ok (tree :: trees), source)) source

/-- The symbol whose productions are chosen from when no depth is left. -/
def fallback (g : Grammar) (symbol : String) : String :=
  if g.declares Grammar.terminalSymbol then Grammar.terminalSymbol else symbol

/-- A tree for a symbol, given the depth that is left. -/
def expand (g : Grammar) : (depth : Nat) → String → Drawing σ Tree
  | 0, symbol =>
    Drawing.andThen (pick g (fallback g symbol) Production.isTerminal) fun production =>
      match production.target with
      | .node kind => buildNode kind production.literals []
      | .alias next => fun source => (.error (.depthExhausted next), source)
  | depth + 1, symbol =>
    Drawing.andThen (pick g symbol fun _ => true) fun production =>
      match production.target with
      | .alias next => expand g depth next
      | .node kind =>
        Drawing.andThen (expandAll (expand g depth) production.symbols)
          (buildNode kind production.literals)

end Derivation

/-- A tree derived from a symbol with a given depth, and the source after it. -/
def Grammar.derive {σ : Type} [RandomSource σ] (g : Grammar) (start : String) (depth : Nat) :
    Derivation.Drawing σ Derivation := fun source =>
  if Derivation.maxDepth < depth then
    (.error (.depthLimit depth Derivation.maxDepth), source)
  else
    Derivation.Drawing.andThen (Derivation.expand g depth start)
      (fun tree source => (.ok ⟨tree.numbered, tree.nodeCount⟩, source)) source

end GrammarArt
