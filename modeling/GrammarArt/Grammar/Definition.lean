import GrammarArt.Binary32.Reader
import GrammarArt.Grammar.Basic
import GrammarArt.Grammar.Error
import GrammarArt.Text.Blank
import GrammarArt.Text.Cut

/-! # Definitions of a grammar text

A grammar is written one definition to a line,

    SYMBOL :: production | production | ...

each production being `name:weight` or `name(argument, ...):weight`.  Blank characters
around any part do not count.  A line is passed over if it is empty or starts with `#` or
`;`.  Here lines are read one by one; what their names stand for is not yet known.
-/
namespace GrammarArt

/-- A production as it is written: a name that is not yet resolved, arguments, a weight. -/
structure RawProduction where
  name : String
  args : List Argument
  weight : Float32
  deriving DecidableEq, Repr

/-- A definition as it is written, and its line. -/
structure Definition where
  line : Nat
  symbol : String
  productions : List RawProduction
  deriving DecidableEq, Repr

namespace Definition

open Text

/-- Whether a text is a name: a letter or an underscore, then letters, digits and
underscores, all of them ASCII. -/
def isName : List Char → Bool
  | [] => false
  | c :: cs => (c.isAlpha || c = '_') && cs.all fun d => d.isAlphanum || d = '_'

/-- The argument that a text denotes: a symbol, or else a finite number. -/
def argument? (cs : List Char) : Option Argument :=
  if isName cs then some (.symbol (String.ofList cs))
  else match Binary32.read? cs with
    | some value => if value.isFinite then some (.literal value) else none
    | none => none

/-- The weight that a text denotes: a finite number that is not negative. -/
def weight? (cs : List Char) : Option Float32 :=
  match Binary32.read? cs with
  | some value => if value.isFinite && 0 ≤ value then some value else none
  | none => none

/-- The arguments of the production at `index`, written between its parentheses. -/
def readArguments (index : Nat) (head : List Char) :
    List (List Char) → Except Malformation (List Argument)
  | [] => .ok []
  | arg :: args =>
    match argument? (trim arg) with
    | none => .error (.argument index (String.ofList (trim arg)) (String.ofList head))
    | some value =>
      match readArguments index head args with
      | .error e => .error e
      | .ok values => .ok (value :: values)

/-- The name and the arguments of the production at `index`. -/
def readHead (index : Nat) (head : List Char) :
    Except Malformation (List Char × List Argument) :=
  match cut? '(' head with
  | none => .ok (head, [])
  | some (name, rest) =>
    match (trimEnd rest).reverse with
    | ')' :: reversed =>
      let inner := reversed.reverse
      if '(' ∈ inner ∨ ')' ∈ inner then .error (.nested index (String.ofList head))
      else if trim inner = [] then .error (.noArguments index (String.ofList head))
      else match readArguments index head (inner.splitOn ',') with
        | .error e => .error e
        | .ok args => .ok (trim name, args)
    | _ => .error (.unbalanced index (String.ofList head))

/-- The production at `index`. -/
def readProduction (index : Nat) (source : List Char) : Except GrammarFault RawProduction :=
  match cutLast? ':' source with
  | none => .error (.malformed (.noWeight index (String.ofList source)))
  | some (head, weight) =>
    match weight? (trim weight) with
    | none => .error (.weight (String.ofList (trim weight)))
    | some value =>
      match readHead index (trim head) with
      | .error e => .error (.malformed e)
      | .ok (name, args) =>
        if isName name then .ok ⟨String.ofList name, args, value⟩
        else .error (.malformed (.productionName index (String.ofList name)))

/-- The productions from the one at `index` on. -/
def readProductions (index : Nat) :
    List (List Char) → Except GrammarFault (List RawProduction)
  | [] => .ok []
  | source :: sources =>
    if trim source = [] then .error (.malformed (.emptyProduction index))
    else match readProduction index (trim source) with
      | .error e => .error e
      | .ok production =>
        match readProductions (index + 1) sources with
        | .error e => .error e
        | .ok productions => .ok (production :: productions)

/-- The definition in a line, which is neither blank nor a comment. -/
def read (line : Nat) (source : List Char) : Except GrammarFault Definition :=
  match cutDouble? ':' source with
  | none => .error (.malformed .noSeparator)
  | some (left, right) =>
    let symbol := trim left
    if (cutDouble? ':' right).isSome then .error (.malformed .secondSeparator)
    else if !isName symbol then .error (.malformed (.symbolName (String.ofList symbol)))
    else if trim right = [] then .error (.emptySymbol (String.ofList symbol))
    else match readProductions 1 ((trim right).splitOn '|') with
      | .error e => .error e
      | .ok productions => .ok ⟨line, String.ofList symbol, productions⟩

/-- Whether a line is blank or a comment. -/
def isSkipped (source : List Char) : Bool :=
  match trim source with
  | [] => true
  | c :: _ => c = '#' || c = ';'

/-- The definitions in the lines from `line` on; no symbol may be defined twice, nor be one
that was `seen` before. -/
def readAll (line : Nat) (seen : List String) :
    List (List Char) → Except GrammarError (List Definition)
  | [] => .ok []
  | source :: sources =>
    if isSkipped source then readAll (line + 1) seen sources
    else match read line (trim source) with
      | .error e => .error (.located line e)
      | .ok definition =>
        if definition.symbol ∈ seen then .error (.located line (.duplicate definition.symbol))
        else match readAll (line + 1) (definition.symbol :: seen) sources with
          | .error e => .error e
          | .ok definitions => .ok (definition :: definitions)

end Definition

end GrammarArt
