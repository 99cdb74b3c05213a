import GrammarArt.Json.Basic

/-! # Tokens of a JSON text

Between tokens there may be spaces, tabs and line ends.  A string is written with escapes:

    \" \\ \/ \b \f \n \r \t     the character they name
    \uXXXX                      a unit of 16 bits, in hexadecimal digits

and with no control character.  Units in the range of surrogates spell a character only in
pairs; a string with any other such unit is a token, but spells no text.
-/
namespace GrammarArt.Json

/-- A token. -/
inductive Token where
  | openList
  | closeList
  | openObject
  | closeObject
  | comma
  | colon
  | null
  | bool (value : Bool)
  | number (numeral : List Char)
  | string (text : Option String)
  deriving DecidableEq, Repr

/-! ### Strings -/

/-- A part of a string: a character, or a unit that was written as an escape. -/
inductive StringPart where
  | char (c : Char)
  | code (n : Nat)
  deriving DecidableEq, Repr

/-- The value of a hexadecimal digit. -/
def hexDigit? (c : Char) : Option Nat :=
  if c.isDigit then some (c.toNat - '0'.toNat)
  else if 'a' ≤ c ∧ c ≤ 'f' then some (c.toNat - 'a'.toNat + 10)
  else if 'A' ≤ c ∧ c ≤ 'F' then some (c.toNat - 'A'.toNat + 10)
  else none

/-- The value of four hexadecimal digits. -/
def hexUnit? (a b c d : Char) : Option Nat := do
  return 4096 * (← hexDigit? a) + 256 * (← hexDigit? b) + 16 * (← hexDigit? c) + (← hexDigit? d)

/-- The character that a one-letter escape names. -/
def escaped? : Char → Option Char
  | '"' => some '"'
  | '\\' => some '\\'
  | '/' => some '/'
  | 'b' => some '\x08'
  | 'f' => some '\x0c'
  | 'n' => some '\n'
  | 'r' => some '\r'
  | 't' => some '\t'
  | _ => none

/-- The parts of a string up to its closing quote, and the number of characters read. -/
def readParts : List Char → Option (List StringPart × Nat)
  | [] => none
  | '"' :: _ => some ([], 1)
  | '\\' :: 'u' :: a :: b :: c :: d :: cs =>
    match hexUnit? a b c d, readParts cs with
    | some n, some (parts, width) => some (.code n :: parts, width + 6)
    | _, _ => none
  | '\\' :: e :: cs =>
    match escaped? e, readParts cs with
    | some c, some (parts, width) => some (.char c :: parts, width + 2)
    | _, _ => none
  | c :: cs =>
    if c.toNat < 0x20 then none
    else (readParts cs).map fun (parts, width) => (.char c :: parts, width + 1)

/-- Whether a unit is the first half of a pair. -/
def isHighHalf (n : Nat) : Bool := 0xD800 ≤ n && n < 0xDC00

/-- Whether a unit is the second half of a pair. -/
def isLowHalf (n : Nat) : Bool := 0xDC00 ≤ n && n < 0xE000

/-- The text that the parts of a string spell. -/
def spell : List StringPart → Option (List Char)
  | [] => some []
  | .char c :: parts => (spell parts).map (c :: ·)
  | .code n :: .code m :: parts =>
    if isHighHalf n && isLowHalf m then
      (spell parts).map (Char.ofNat (0x10000 + 1024 * (n - 0xD800) + (m - 0xDC00)) :: ·)
    else if isHighHalf n || isLowHalf n then none
    else (spell (.code m :: parts)).map (Char.ofNat n :: ·)
  | .code n :: parts =>
    if isHighHalf n || isLowHalf n then none else (spell parts).map (Char.ofNat n :: ·)

/-! ### Numbers -/

/-- The digits at the front of a text that has some there. -/
def digits? (cs : List Char) : Option (List Char) :=
  match cs.takeWhile Char.isDigit with
  | [] => none
  | ds => some ds

/-- The whole part of a numeral: zero, or digits that do not start with it. -/
def whole? (cs : List Char) : Option (List Char) :=
  match digits? cs with
  | some ['0'] => some ['0']
  | some ('0' :: _) => none
  | ds => ds

/-- The fraction of a numeral, with its point; it may be missing. -/
def fraction? : List Char → Option (List Char)
  | '.' :: cs => (digits? cs).map ('.' :: ·)
  | _ => some []

/-- The power of ten behind `e`: digits with an optional sign. -/
def power? : List Char → Option (List Char)
  | '-' :: cs => (digits? cs).map ('-' :: ·)
  | '+' :: cs => (digits? cs).map ('+' :: ·)
  | cs => digits? cs

/-- The exponent of a numeral, with its `e`; it may be missing. -/
def exponent? : List Char → Option (List Char)
  | 'e' :: cs => (power? cs).map ('e' :: ·)
  | 'E' :: cs => (power? cs).map ('E' :: ·)
  | _ => some []

/-- The numeral without a sign at the front of a text. -/
def unsigned? (cs : List Char) : Option (List Char) := do
  let whole ← whole? cs
  let fraction ← fraction? (cs.drop whole.length)
  let exponent ← exponent? (cs.drop (whole.length + fraction.length))
  return whole ++ fraction ++ exponent

/-- The numeral at the front of a text. -/
def numeral? : List Char → Option (List Char)
  | '-' :: cs => (unsigned? cs).map ('-' :: ·)
  | cs => unsigned? cs

/-! ### Texts -/

/-- Whether a character may stand between tokens. -/
def isBlank (c : Char) : Bool := c = ' ' || c = '\n' || c = '\t' || c = '\r'

/-- The token of a word, if the characters behind its first one are these. -/
def word? (token : Token) (letters : List Char) (cs : List Char) : Option (Token × Nat) :=
  if letters.isPrefixOf cs then some (token, letters.length) else none

/-- The token at the front of a text, and the number of characters it has after its first. -/
def munch (c : Char) (cs : List Char) : Option (Token × Nat) :=
  match c with
  | '[' => some (.openList, 0)
  | ']' => some (.closeList, 0)
  | '{' => some (.openObject, 0)
  | '}' => some (.closeObject, 0)
  | ',' => some (.comma, 0)
  | ':' => some (.colon, 0)
  | 'n' => word? .null ['u', 'l', 'l'] cs
  | 't' => word? (.bool true) ['r', 'u', 'e'] cs
  | 'f' => word? (.bool false) ['a', 'l', 's', 'e'] cs
  | '"' =>
    (readParts cs).map fun (parts, width) => (.string ((spell parts).map String.ofList), width)
  | c => (numeral? (c :: cs)).map fun numeral => (.number numeral, numeral.length - 1)

/-- The tokens of a text. -/
def lex : List Char → Option (List Token)
  | [] => some []
  | c :: cs =>
    if isBlank c then lex cs
    else match munch c cs with
      | none => none
      | some (token, more) => (lex (cs.drop more)).map (token :: ·)
termination_by cs => cs.length
decreasing_by all_goals simp only [List.length_cons, List.length_drop]; omega

end GrammarArt.Json
