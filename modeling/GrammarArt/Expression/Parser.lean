import GrammarArt.Expression.Token
import GrammarArt.Text.Blank
import GrammarArt.Tree.Basic

/-! # Reading an expression

    node      =  name [ "(" [ argument { "," argument } ] ")" ]
    argument  =  node  |  [ "-" ] number

The arguments of a node are its children and then its parameters, as many as its kind has
of each.  Nodes are nested at most `Tree.maxDepth` deep, and are numbered in post-order.

A reader of tokens returns what it read and a list of tokens that is shorter than the one
it was given (`Read`); that the rest is shorter is what lets the list of arguments be read
by recursion.  Nesting is counted down from the greatest depth.
-/
namespace GrammarArt.Expression

/-- Why a text is no expression. -/
inductive SyntaxError where
  | lexical (error : LexicalError)
  /-- A node that lies too deep. -/
  | tooDeep
  /-- Something else where the name of a node has to stand. -/
  | nodeExpected (found : Lexeme)
  | unknownKind (name : String)
  /-- A child behind a parameter. -/
  | childAfterParameter
  | childCount (name : String) (arity found : Nat)
  | parameterCount (name : String) (count found : Nat)
  /-- Something else where an argument has to stand. -/
  | argumentExpected (found : Lexeme)
  /-- Something else where one certain token has to stand. -/
  | expected (wanted found : Lexeme)
  deriving DecidableEq, Repr

/-- Why a text is no expression, and the offset of the byte where this shows. -/
structure ParseError where
  offset : Nat
  cause : SyntaxError
  deriving DecidableEq, Repr

/-- The text of a lexical error. -/
def LexicalError.message : LexicalError → String
  | exponentDigits => "invalid number exponent (expected digits)"
  | outOfRange numeral => s!"number '{numeral}' is out of range"
  | unexpected byte => s!"unexpected character '{byte}'"

/-- The text of a syntax error. -/
def SyntaxError.message : SyntaxError → String
  | lexical e => e.message
  | tooDeep => s!"expression nests deeper than {Tree.maxDepth} levels"
  | nodeExpected found => s!"expected node name, found {found.display}"
  | unknownKind name => s!"unknown node kind '{name}'"
  | childAfterParameter => "child expressions must come before numeric parameters"
  | childCount name arity found => s!"'{name}' takes {arity} child expressions, found {found}"
  | parameterCount name count found => s!"'{name}' takes {count} numeric parameters, found {found}"
  | argumentExpected found => s!"expected expression or number, found {found.display}"
  | .expected wanted found => s!"expected {wanted.display}, found {found.display}"

/-- The text of a parse error. -/
def ParseError.message (e : ParseError) : String := s!"at byte {e.offset}: {e.cause.message}"

/-- A value read from the front of a list of tokens, and the shorter list left. -/
structure Read (α : Type) (tokens : List Token) where
  value : α
  rest : List Token
  shorter : rest.length < tokens.length

/-- The parts of a node's argument list: children and then parameters. -/
structure Arguments where
  children : List Tree
  parameters : List Float32

/-- A child added behind other arguments; there may be no parameter among them. -/
def Arguments.addChild? (args : Arguments) (child : Tree) : Option Arguments :=
  if args.parameters = [] then some { args with children := args.children ++ [child] } else none

/-- A parameter added behind other arguments. -/
def Arguments.addParameter (args : Arguments) (value : Float32) : Arguments :=
  { args with parameters := args.parameters ++ [value] }

/-- A reader of a single node. -/
abbrev NodeReader := (tokens : List Token) → Except ParseError (Read Tree tokens)

/-- One argument, added to those before it.  The text ends at `stop`. -/
def readArgument (node : NodeReader) (stop : Nat) (args : Arguments) (tokens : List Token) :
    Except ParseError (Read Arguments tokens) :=
  match tokens with
  | [] => .error ⟨stop, .argumentExpected .endOfText⟩
  | token :: rest =>
    match token.lexeme with
    | .number value => .ok ⟨args.addParameter value, rest, Nat.lt_add_one _⟩
    | .minus =>
      match rest with
      | [] => .error ⟨stop, .argumentExpected .endOfText⟩
      | next :: rest =>
        match next.lexeme with
        | .number value =>
          .ok ⟨args.addParameter (-value), rest, Nat.lt_succ_of_lt (Nat.lt_succ_self _)⟩
        | found => .error ⟨next.start, .argumentExpected found⟩
    | .name _ =>
      match node (token :: rest) with
      | .error e => .error e
      | .ok ⟨child, left, shorter⟩ =>
        match args.addChild? child with
        | some args => .ok ⟨args, left, shorter⟩
        | none => .error ⟨token.start, .childAfterParameter⟩
    | found => .error ⟨token.start, .argumentExpected found⟩

/-- The arguments of a node up to its closing parenthesis, added to those before them. -/
def readArguments (node : NodeReader) (stop : Nat) (args : Arguments) (tokens : List Token) :
    Except ParseError (Read Arguments tokens) :=
  match readArgument node stop args tokens with
  | .error e => .error e
  | .ok ⟨_, [], _⟩ => .error ⟨stop, .expected .closeParen .endOfText⟩
  | .ok ⟨args, token :: rest, shorter⟩ =>
    have closer : rest.length < tokens.length := Nat.lt_of_succ_lt shorter
    match token.lexeme with
    | .comma =>
      match readArguments node stop args rest with
      | .error e => .error e
      | .ok ⟨args, left, le⟩ => .ok ⟨args, left, Nat.lt_trans le closer⟩
    | .closeParen => .ok ⟨args, rest, closer⟩
    | found => .error ⟨token.start, .expected .closeParen found⟩
termination_by tokens.length

/-- A list of tokens that is no longer than another one. -/
abbrev Rest (tokens : List Token) := { rest : List Token // rest.length ≤ tokens.length }

/-- The tokens behind one certain token, if it comes first. -/
def skip? (wanted : Lexeme) : (tokens : List Token) → Option (Rest tokens)
  | [] => none
  | token :: rest => if token.lexeme = wanted then some ⟨rest, Nat.le_succ _⟩ else none

/-- The argument list of a node, if there is one: the tokens behind the name of the node. -/
def readArgumentList (node : NodeReader) (stop : Nat) (tokens : List Token) :
    Except ParseError (Arguments × Rest tokens) :=
  match skip? .openParen tokens with
  | none => .ok (⟨[], []⟩, ⟨tokens, Nat.le_refl _⟩)
  | some ⟨inner, le⟩ =>
    match skip? .closeParen inner with
    | some ⟨rest, le'⟩ => .ok (⟨[], []⟩, ⟨rest, Nat.le_trans le' le⟩)
    | none =>
      match readArguments node stop ⟨[], []⟩ inner with
      | .error e => .error e
      | .ok ⟨args, rest, shorter⟩ => .ok (args, ⟨rest, Nat.le_of_lt (Nat.lt_of_lt_of_le shorter le)⟩)

/-- The node of a name and arguments.  Identifiers are given to all nodes at the end. -/
def buildNode (name : String) (kind : Kind) (start : Nat) (args : Arguments) :
    Except ParseError Tree :=
  match Tree.make 0 kind args.children args.parameters with
  | .ok tree => .ok tree
  | .error (.children _) => .error ⟨start, .childCount name kind.arity args.children.length⟩
  | .error (.parameters _) =>
    .error ⟨start, .parameterCount name kind.parameters.length args.parameters.length⟩

/-- A node with at most `levels` levels.  The text ends at `stop`. -/
def readNode (stop : Nat) : (levels : Nat) → NodeReader
  | 0, [] => .error ⟨stop, .tooDeep⟩
  | 0, token :: _ => .error ⟨token.start, .tooDeep⟩
  | _ + 1, [] => .error ⟨stop, .nodeExpected .endOfText⟩
  | levels + 1, token :: tokens =>
    match token.lexeme with
    | .name name =>
      match Kind.ofName? name with
      | none => .error ⟨token.start, .unknownKind name⟩
      | some kind =>
        match readArgumentList (readNode stop levels) stop tokens with
        | .error e => .error e
        | .ok (args, ⟨rest, le⟩) =>
          match buildNode name kind token.start args with
          | .error e => .error e
          | .ok tree => .ok ⟨tree, rest, Nat.lt_succ_of_le le⟩
    | found => .error ⟨token.start, .nodeExpected found⟩

/-- The tree of a list of tokens, all of which it takes. -/
def readTokens (tokens : Tokens) : Except ParseError Tree :=
  match readNode tokens.stop Tree.maxDepth tokens.body with
  | .error e => .error e
  | .ok ⟨tree, [], _⟩ => .ok tree.numbered
  | .ok ⟨_, token :: _, _⟩ => .error ⟨token.start, .expected .endOfText token.lexeme⟩

/-- The tree of an expression.  Blank characters around it do not count, also not for the
offsets of errors. -/
def parse (s : String) : Except ParseError Tree :=
  match lex (String.ofList (Text.trim s.toList)) with
  | .error (error, offset) => .error ⟨offset, .lexical error⟩
  | .ok tokens => readTokens tokens

end GrammarArt.Expression
