import GrammarArt.Binary32.Shortest

/-! # Numbers as text

Three layouts are in use, all of the same digits (`shortest`) and different only in the
record `Layout`:

* `canonical`, of expressions and of messages: always positional, `2`, `0.0000001`;
* `literal`, of shaders and of listings: always with a point or an exponent, `2.0`, `1e-7`;
* `wire`, of requests: as `literal`, with its own bounds and its own ties.
-/
namespace GrammarArt.Binary32

/-- How the digits of a number are laid out. -/
structure Layout where
  /-- Which of two equally near shortest decimals is printed. -/
  tie : Tie
  /-- Whether a number is written without an exponent, by the place of the point: the
  number of digits before it, negative for zeros behind it. -/
  positional : Int → Bool
  /-- Whether a whole number written without an exponent keeps `.0`. -/
  keepsPoint : Bool

/-- Digits without an exponent, and without a point where none is needed. -/
def canonical : Layout := ⟨.larger, fun _ => true, false⟩

/-- Numbers from `10⁻⁴` up to `10¹⁶` have no exponent, and whole ones end in `.0`. -/
def literal : Layout := ⟨.larger, fun place => -3 ≤ place ∧ place ≤ 16, true⟩

/-- Numbers from `10⁻⁶` up to `10¹³` have no exponent, and whole ones end in `.0`. -/
def wire : Layout := ⟨.even, fun place => -5 ≤ place ∧ place ≤ 13, true⟩

/-- Digits with a point after the first `place` of them. -/
def positionalText (keepsPoint : Bool) (digits : List Char) (place : Int) : List Char :=
  match place with
  | .ofNat p =>
    if p = 0 then '0' :: '.' :: digits
    else if digits.length ≤ p then
      digits ++ List.replicate (p - digits.length) '0' ++ (if keepsPoint then ['.', '0'] else [])
    else digits.take p ++ '.' :: digits.drop p
  | .negSucc p => '0' :: '.' :: (List.replicate (p + 1) '0' ++ digits)

/-- A whole number in decimal digits, with a minus sign if it is negative. -/
def wholeText : Int → List Char
  | .ofNat n => Nat.toDigits 10 n
  | .negSucc n => '-' :: Nat.toDigits 10 (n + 1)

/-- One digit, the others behind a point, and the power of ten. -/
def exponentText (digits : List Char) (place : Int) : List Char :=
  digits.take 1 ++ (if 1 < digits.length then '.' :: digits.drop 1 else [])
    ++ 'e' :: wholeText (place - 1)

/-- The text of a finite magnitude. -/
def magnitudeText (form : Layout) (b : Nat) : List Char :=
  let decimal := shortest form.tie b
  let digits := Nat.toDigits 10 decimal.digits
  let place := digits.length + decimal.exponent
  if form.positional place then positionalText form.keepsPoint digits place
  else exponentText digits place

/-- The text of a number.  Numbers that are not finite are named. -/
def print (form : Layout) (v : Float32) : String :=
  if v.isNaN then "NaN"
  else
    let body := if v.isInf then ['i', 'n', 'f'] else magnitudeText form (magnitude v)
    String.ofList (if negative v then '-' :: body else body)

end GrammarArt.Binary32
