import GrammarArt.Expression.Token
import GrammarArt.Shader.Syntax

/-! # The shading language

The statements and the expressions of the shading language that the code of a tree makes use
of, and how they are read from a text.

    statement       =  "let" name ":" name "=" comparison ";"
    comparison      =  sum { ( "<" | "==" ) sum }
    sum             =  product { ( "+" | "-" ) product }
    product         =  sign { ( "*" | "/" | "%" ) sign }
    sign            =  "-" sign  |  primary { "." name | "[" comparison "]" }
    primary         =  number  |  name  |  name "(" comparison { "," comparison } ")"
                    |  "(" comparison ")"

A text is cut into tokens first (`scan`).  The name of the vector type is a single token with
its brackets, so that these are not taken for signs of comparison; a numeral is a whole number
unless it has a point or an exponent.  Of the signs with two characters only `==` is known.

The levels of the grammar between `comparison` and `product` are one reader with a rank,
`readOperand`: the operators of its rank group to the left, and their operands have the next
rank.  Every reader returns what it read and the shorter list of tokens behind it, which is
why the readers end.
-/
namespace GrammarArt.Shader.Language

/-! ### Tokens -/

/-- A token. -/
inductive Token where
  | word (text : String)
  | whole (value : Nat)
  | float (value : Float32)
  | sign (text : String)
  deriving DecidableEq, Repr

/-- The name of the type of vectors. -/
def vectorType : String := Function.vec3.text

/-- The signs that consist of one character. -/
def signs : List Char := ['(', ')', '[', ']', ',', '.', ':', ';', '=', '<', '+', '-', '*', '/', '%']

/-- The longest word at the start of a text. -/
def scanWord (cs : List Char) : List Char :=
  let name := cs.takeWhile Expression.isNamePart
  let brackets := ['<', 'f', '3', '2', '>']
  if name = ['v', 'e', 'c', '3'] ∧ brackets <+: cs.drop name.length then name ++ brackets else name

/-- The longest token at the start of a text, which is not blank there, and the number of its
characters. -/
def munch? (c : Char) (cs : List Char) : Option (Token × Nat) :=
  if Expression.startsNumeral (c :: cs) then
    match Expression.numeral (c :: cs) with
    | .error _ => none
    | .ok (parts, width) =>
      if width = parts.whole.length then some (.whole (Binary32.digitsValue parts.whole), width)
      else some (.float parts.value, width)
  else if Expression.isNameStart c then
    let word := scanWord (c :: cs)
    some (.word (String.ofList word), word.length)
  else if c = '=' ∧ cs.head? = some '=' then some (.sign "==", 2)
  else if c ∈ signs then some (.sign (String.singleton c), 1)
  else none

/-- The tokens of a text. -/
def scan : List Char → Option (List Token)
  | [] => some []
  | c :: cs =>
    if Text.isBlank c then scan cs
    else match munch? c cs with
      | none => none
      | some (token, width) => (scan (cs.drop (width - 1))).map (token :: ·)
termination_by cs => cs.length
decreasing_by all_goals simp only [List.length_cons, List.length_drop]; omega

/-! ### Expressions -/

/-- An expression. -/
inductive Expr where
  | name (text : String)
  | whole (value : Nat)
  | float (value : Float32)
  | member (a : Expr) (field : String)
  | index (a i : Expr)
  | negate (a : Expr)
  | infixed (op : Operator) (a b : Expr)
  | call (function : String) (args : List Expr)

/-- A list of tokens that is shorter than another one. -/
abbrev Shorter (tokens : List Token) := { rest : List Token // rest.length < tokens.length }

/-- A list of tokens that is no longer than another one. -/
abbrev Rest (tokens : List Token) := { rest : List Token // rest.length ≤ tokens.length }

/-- The tokens behind one certain token, if it comes first. -/
def skip? (wanted : Token) : (tokens : List Token) → Option (Shorter tokens)
  | [] => none
  | token :: rest => if token = wanted then some ⟨rest, Nat.lt_succ_self _⟩ else none

/-- The word that comes first. -/
def word? : (tokens : List Token) → Option (String × Shorter tokens)
  | .word text :: rest => some (text, ⟨rest, Nat.lt_succ_self _⟩)
  | _ => none

/-- The operators. -/
def operators : List Operator := [.add, .sub, .mul, .div, .rem, .less, .equal]

/-- The operator of some rank that comes first. -/
def operator? (rank : Nat) : (tokens : List Token) → Option (Operator × Shorter tokens)
  | .sign text :: rest => do
    let op ← operators.find? fun op => op.text = text && op.rank = rank
    return (op, ⟨rest, Nat.lt_succ_self _⟩)
  | _ => none

mutual

/-- An expression in which only operators of at least some rank stand outside parentheses. -/
def readOperand (rank : Nat) (tokens : List Token) : Option (Expr × Shorter tokens) :=
  if rank < 3 then do
    let (left, ⟨rest, hrest⟩) ← readOperand (rank + 1) tokens
    let (e, ⟨rest', hrest'⟩) ← readChain rank left rest
    return (e, ⟨rest', Nat.lt_of_le_of_lt hrest' hrest⟩)
  else readSigned tokens
termination_by (tokens.length, 3 + (3 - rank))

/-- The operators of some rank and their right operands, behind the first left operand. -/
def readChain (rank : Nat) (left : Expr) (tokens : List Token) : Option (Expr × Rest tokens) :=
  match operator? rank tokens with
  | none => some (left, ⟨tokens, Nat.le_refl _⟩)
  | some (op, ⟨rest, hrest⟩) => do
    let (right, ⟨rest', hrest'⟩) ← readOperand (rank + 1) rest
    have hlt := Nat.lt_trans hrest' hrest
    let (e, ⟨rest'', hrest''⟩) ← readChain rank (.infixed op left right) rest'
    return (e, ⟨rest'', Nat.le_of_lt (Nat.lt_of_le_of_lt hrest'' hlt)⟩)
termination_by (tokens.length, 0)

/-- A primary expression with what is taken of it, or the negation of one. -/
def readSigned (tokens : List Token) : Option (Expr × Shorter tokens) :=
  match skip? (.sign "-") tokens with
  | some ⟨rest, hrest⟩ => do
    let (a, ⟨rest', hrest'⟩) ← readSigned rest
    return (.negate a, ⟨rest', Nat.lt_trans hrest' hrest⟩)
  | none => do
    let (a, ⟨rest, hrest⟩) ← readPrimary tokens
    let (e, ⟨rest', hrest'⟩) ← readSuffixes a rest
    return (e, ⟨rest', Nat.lt_of_le_of_lt hrest' hrest⟩)
termination_by (tokens.length, 2)

/-- A number, a name, a call or an expression in parentheses. -/
def readPrimary (tokens : List Token) : Option (Expr × Shorter tokens) :=
  match tokens with
  | [] => none
  | .whole value :: rest => some (.whole value, ⟨rest, Nat.lt_succ_self _⟩)
  | .float value :: rest => some (.float value, ⟨rest, Nat.lt_succ_self _⟩)
  | .word text :: rest =>
    match skip? (.sign "(") rest with
    | none => some (.name text, ⟨rest, Nat.lt_succ_self _⟩)
    | some ⟨inner, hinner⟩ => do
      let (args, ⟨rest', hrest'⟩) ← readArguments inner
      return (.call text args, ⟨rest', Nat.lt_succ_of_lt (Nat.lt_trans hrest' hinner)⟩)
  | .sign text :: rest => do
    let ⟨inner, hinner⟩ ← skip? (.sign "(") (.sign text :: rest)
    let (e, ⟨rest', hrest'⟩) ← readOperand 0 inner
    let ⟨rest'', hrest''⟩ ← skip? (.sign ")") rest'
    return (e, ⟨rest'', Nat.lt_trans hrest'' (Nat.lt_trans hrest' hinner)⟩)
termination_by (tokens.length, 1)

/-- The fields and the places of a value that are taken one after the other. -/
def readSuffixes (a : Expr) (tokens : List Token) : Option (Expr × Rest tokens) :=
  match skip? (.sign ".") tokens with
  | some ⟨rest, hrest⟩ => do
    let (field, ⟨rest', hrest'⟩) ← word? rest
    have hlt := Nat.lt_trans hrest' hrest
    let (e, ⟨rest'', hrest''⟩) ← readSuffixes (.member a field) rest'
    return (e, ⟨rest'', Nat.le_of_lt (Nat.lt_of_le_of_lt hrest'' hlt)⟩)
  | none =>
    match skip? (.sign "[") tokens with
    | some ⟨rest, hrest⟩ => do
      let (i, ⟨rest', hrest'⟩) ← readOperand 0 rest
      let ⟨rest'', hrest''⟩ ← skip? (.sign "]") rest'
      have hlt := Nat.lt_trans hrest'' (Nat.lt_trans hrest' hrest)
      let (e, ⟨left, hleft⟩) ← readSuffixes (.index a i) rest''
      return (e, ⟨left, Nat.le_of_lt (Nat.lt_of_le_of_lt hleft hlt)⟩)
    | none => some (a, ⟨tokens, Nat.le_refl _⟩)
termination_by (tokens.length, 0)

/-- The arguments of a call, and its closing parenthesis. -/
def readArguments (tokens : List Token) : Option (List Expr × Shorter tokens) := do
  let (e, ⟨rest, hrest⟩) ← readOperand 0 tokens
  match skip? (.sign ",") rest with
  | some ⟨rest', hrest'⟩ =>
    have hlt := Nat.lt_trans hrest' hrest
    let (es, ⟨rest'', hrest''⟩) ← readArguments rest'
    return (e :: es, ⟨rest'', Nat.lt_trans hrest'' hlt⟩)
  | none =>
    let ⟨rest', hrest'⟩ ← skip? (.sign ")") rest
    return ([e], ⟨rest', Nat.lt_trans hrest' hrest⟩)
termination_by (tokens.length, 7)

end

/-! ### Statements -/

/-- A statement: a name is given to the value of an expression, which is of some type. -/
structure Binding where
  name : String
  type : String
  value : Expr

/-- The statement at the front of some tokens. -/
def readBinding (tokens : List Token) : Option (Binding × Shorter tokens) := do
  let ⟨rest₁, h₁⟩ ← skip? (.word "let") tokens
  let (name, ⟨rest₂, h₂⟩) ← word? rest₁
  let ⟨rest₃, h₃⟩ ← skip? (.sign ":") rest₂
  let (type, ⟨rest₄, h₄⟩) ← word? rest₃
  let ⟨rest₅, h₅⟩ ← skip? (.sign "=") rest₄
  let (value, ⟨rest₆, h₆⟩) ← readOperand 0 rest₅
  let ⟨rest₇, h₇⟩ ← skip? (.sign ";") rest₆
  return (⟨name, type, value⟩, ⟨rest₇, by omega⟩)

/-- The statements that some tokens consist of. -/
def readBindings : (tokens : List Token) → Option (List Binding)
  | [] => some []
  | token :: tokens => do
    let (binding, ⟨rest, _⟩) ← readBinding (token :: tokens)
    return binding :: (← readBindings rest)
termination_by tokens => tokens.length
decreasing_by assumption

/-- The statements that a text consists of. -/
def read? (text : String) : Option (List Binding) := do
  readBindings (← scan text.toList)

end GrammarArt.Shader.Language
