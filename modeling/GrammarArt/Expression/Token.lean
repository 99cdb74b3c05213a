import GrammarArt.Binary32.Printer
import GrammarArt.Binary32.Reader
import GrammarArt.Text.Blank
import GrammarArt.Text.Bytes

/-! # Tokens of an expression

An expression is read byte by byte (`Text.bytes`).  At each place the longest token that
starts there is taken: a name, a numeral, or one of four signs; blank bytes between tokens
are passed over.  A numeral is

    digits [ "." digits ] [ exponent ]    or    "." digits [ exponent ]

with `exponent` an `e` or `E`, an optional sign and digits.  Its sign is a token of its own,
so every number that is read is finite and not negative.  Every token carries its span, the
offsets of its first byte and of the first byte after it.
-/
namespace GrammarArt.Expression

/-- What a token says. -/
inductive Lexeme where
  | name (text : String)
  | number (value : Float32)
  | openParen
  | closeParen
  | comma
  | minus
  | endOfText
  deriving DecidableEq, Repr

/-- A token, from the byte at `start` up to the byte before `stop`. -/
structure Token where
  lexeme : Lexeme
  start : Nat
  stop : Nat
  deriving DecidableEq, Repr

/-- The tokens of a text, and the offset of its end. -/
structure Tokens where
  body : List Token
  stop : Nat
  deriving DecidableEq, Repr

/-- All tokens, the last one being the end of the text. -/
def Tokens.toList (tokens : Tokens) : List Token :=
  tokens.body ++ [⟨.endOfText, tokens.stop, tokens.stop⟩]

/-- Why a text has no tokens. -/
inductive LexicalError where
  /-- An exponent without digits. -/
  | exponentDigits
  /-- A numeral that is too large for a finite number. -/
  | outOfRange (numeral : String)
  /-- A byte with which no token starts. -/
  | unexpected (byte : Char)
  deriving DecidableEq, Repr

/-- Whether a name can start with a byte. -/
def isNameStart (c : Char) : Bool := c.isAlpha || c = '_'

/-- Whether a name can go on with a byte. -/
def isNamePart (c : Char) : Bool := c.isAlphanum || c = '_'

/-- The sign of a byte. -/
def signOf? : Char → Option Lexeme
  | '(' => some .openParen
  | ')' => some .closeParen
  | ',' => some .comma
  | '-' => some .minus
  | _ => none

/-- The parts of the longest numeral at the start of a text, and the number of its bytes;
the offset of the `e`, if no digits follow it. -/
def numeral (cs : List Char) : Except Nat (Binary32.Numeral × Nat) :=
  let whole := cs.takeWhile Char.isDigit
  let fraction := match cs.dropWhile Char.isDigit with
    | '.' :: ds => ds.takeWhile Char.isDigit
    | _ => []
  let width := whole.length + (if fraction = [] then 0 else fraction.length + 1)
  match cs.drop width with
  | e :: rest =>
    if e = 'e' ∨ e = 'E' then
      let sign := match rest with
        | '+' :: _ | '-' :: _ => 1
        | _ => 0
      let digits := (rest.drop sign).takeWhile Char.isDigit
      if digits = [] then .error width
      else
        let value : Int := Binary32.digitsValue digits
        let exponent := if rest.head? = some '-' then -value else value
        .ok (⟨whole, fraction, exponent⟩, width + 1 + sign + digits.length)
    else .ok (⟨whole, fraction, 0⟩, width)
  | [] => .ok (⟨whole, fraction, 0⟩, width)

/-- Whether a numeral starts a text: a digit does, and a point if a digit follows it. -/
def startsNumeral : List Char → Bool
  | '.' :: d :: _ => d.isDigit
  | c :: _ => c.isDigit
  | [] => false

/-- The longest token at the start of a text, which is not blank there, and the number of
bytes it has after its first one; the error, and the number of bytes before it. -/
def munch (c : Char) (cs : List Char) : Except (LexicalError × Nat) (Lexeme × Nat) :=
  if startsNumeral (c :: cs) then
    match numeral (c :: cs) with
    | .error width => .error (.exponentDigits, width)
    | .ok (parts, width) =>
      let value := parts.value
      if value.isFinite then .ok (.number value, width - 1)
      else .error (.outOfRange (String.ofList ((c :: cs).take width)), 0)
  else if isNameStart c then
    let rest := cs.takeWhile isNamePart
    .ok (.name (String.ofList (c :: rest)), rest.length)
  else match signOf? c with
    | some sign => .ok (sign, 0)
    | none => .error (.unexpected c, 0)

/-- The tokens of a text whose first byte has the given offset; an error and its offset. -/
def scan (offset : Nat) : List Char → Except (LexicalError × Nat) (List Token)
  | [] => .ok []
  | c :: cs =>
    if Text.isBlank c then scan (offset + 1) cs
    else match munch c cs with
      | .error (error, before) => .error (error, offset + before)
      | .ok (lexeme, more) => do
        let stop := offset + 1 + more
        let rest ← scan stop (cs.drop more)
        return ⟨lexeme, offset, stop⟩ :: rest
termination_by cs => cs.length
decreasing_by all_goals simp only [List.length_cons, List.length_drop]; omega

/-- The tokens of a text; an error and its offset. -/
def lex (s : String) : Except (LexicalError × Nat) Tokens := do
  let bytes := Text.bytes s
  return ⟨← scan 0 bytes, bytes.length⟩

/-- A token as it is shown in an error. -/
def Lexeme.display : Lexeme → String
  | name text => s!"Ident(\"{text}\")"
  | number value => "Number(" ++ Binary32.print Binary32.literal value ++ ")"
  | openParen => "LParen"
  | closeParen => "RParen"
  | comma => "Comma"
  | minus => "Minus"
  | endOfText => "Eof"

end GrammarArt.Expression
