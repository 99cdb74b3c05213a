import GrammarArt.Binary32.Shortest

/-! # Reading numbers

A numeral is read as the single nearest to it: once, from its digits, however many there
are.  Here are the parts of a numeral (`Numeral`) and the reader of a whole text
(`read?`), which also knows signs and the names of infinity and of what is not a number.
-/
namespace GrammarArt.Binary32

/-- The parts of an unsigned numeral: digits before and after the point, and the power of
ten behind `e`. -/
structure Numeral where
  whole : List Char
  fraction : List Char
  exponent : Int
  deriving DecidableEq, Repr

/-- The value of a run of digits. -/
def digitsValue (ds : List Char) : Nat :=
  ds.foldl (fun n d => 10 * n + (d.toNat - '0'.toNat)) 0

/-- The decimal that a numeral denotes. -/
def Numeral.decimal (n : Numeral) : Decimal :=
  ⟨digitsValue (n.whole ++ n.fraction), n.exponent - n.fraction.length⟩

/-- The single nearest to a numeral. -/
def Numeral.value (n : Numeral) : Float32 := ofMagnitude false n.decimal.nearest

/-- The power of ten in the text behind `e`: digits with an optional sign, and nothing else. -/
def exponent? : List Char → Option Int
  | '-' :: ds => if ds ≠ [] ∧ ds.all Char.isDigit then some (-digitsValue ds) else none
  | '+' :: ds => if ds ≠ [] ∧ ds.all Char.isDigit then some (digitsValue ds) else none
  | ds => if ds ≠ [] ∧ ds.all Char.isDigit then some (digitsValue ds) else none

/-- The parts of a text that is an unsigned numeral: digits with at most one point among
them, at least one digit, and an optional exponent. -/
def Numeral.ofText? (cs : List Char) : Option Numeral :=
  let whole := cs.takeWhile Char.isDigit
  let rest := cs.dropWhile Char.isDigit
  let (fraction, rest) := match rest with
    | '.' :: r => (r.takeWhile Char.isDigit, r.dropWhile Char.isDigit)
    | _ => ([], rest)
  if whole = [] ∧ fraction = [] then none
  else match rest with
    | [] => some ⟨whole, fraction, 0⟩
    | e :: r => if e = 'e' ∨ e = 'E' then (exponent? r).map (⟨whole, fraction, ·⟩) else none

/-- The number that a text without a sign denotes. -/
def readUnsigned? (cs : List Char) : Option Float32 :=
  let name := String.ofList (cs.map Char.toLower)
  if name = "inf" ∨ name = "infinity" then some (ofMagnitude false infinityBits)
  else if name = "nan" then some (Float32.ofBits 0x7fc00000)
  else (Numeral.ofText? cs).map Numeral.value

/-- The number that a text denotes, with an optional sign in front. -/
def read? : List Char → Option Float32
  | '-' :: cs => (readUnsigned? cs).map (- ·)
  | '+' :: cs => readUnsigned? cs
  | cs => readUnsigned? cs

end GrammarArt.Binary32
