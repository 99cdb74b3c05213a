import GrammarArt.Binary32.Printer
import GrammarArt.Binary32.Reader
import GrammarArt.Binary64
import GrammarArt.Json.Basic

/-! # Numbers in JSON

A numeral without a fraction and an exponent is a whole number, as long as it fits 64 bits;
`-0` is not one.  From a whole number a single is made by one rounding.  All other numerals
are read by way of double precision, from as many leading digits as fit 64 bits, and the
digits left are dropped.
-/
namespace GrammarArt.Json

open Binary32 (digitsValue)

/-- The natural number of a numeral that has digits only. -/
def naturalOf? (numeral : List Char) : Option Nat :=
  if numeral ≠ [] ∧ numeral.all Char.isDigit then some (digitsValue numeral) else none

/-- The natural number below a bound. -/
def natural? (bound : Nat) : Json → Option Nat
  | number numeral => (naturalOf? numeral).bind fun n => if n < bound then some n else none
  | _ => none

/-- A number extended by further digits as long as it fits 64 bits, and the number of the
digits left. -/
def extend (n : Nat) : List Char → Nat × Nat
  | [] => (n, 0)
  | d :: ds =>
    let next := 10 * n + (d.toNat - '0'.toNat)
    if next < UInt64.size then extend next ds else (n, ds.length + 1)

/-- The magnitude of a numeral, read by way of double precision. -/
def magnitudeOf? (numeral : Binary32.Numeral) : Option Nat :=
  let (n, wholeLeft) := extend 0 numeral.whole
  let (n, fractionLeft) := extend n numeral.fraction
  let used := numeral.fraction.length - fractionLeft
  Binary64.magnitude? n (numeral.exponent + wholeLeft - used)

/-- The magnitude of a numeral without its sign; a whole number is one up to `most`. -/
def unsigned32? (most : Nat) (zeroIsWhole : Bool) (numeral : List Char) : Option Nat :=
  match naturalOf? numeral with
  | some n =>
    if n ≤ most ∧ (n ≠ 0 ∨ zeroIsWhole) then some (Binary32.nearest n 1)
    else (Binary32.Numeral.ofText? numeral).bind magnitudeOf?
  | none => (Binary32.Numeral.ofText? numeral).bind magnitudeOf?

/-- The single of a number; none if it is beyond all doubles. -/
def float32? : Json → Option Float32
  | number ('-' :: numeral) =>
    (unsigned32? (UInt64.size / 2) false numeral).map (Binary32.ofMagnitude true)
  | number numeral => (unsigned32? (UInt64.size - 1) true numeral).map (Binary32.ofMagnitude false)
  | _ => none

/-- The number of a natural number. -/
def ofNat (n : Nat) : Json := number (Nat.toDigits 10 n)

/-- The number of a single; null if it is not finite. -/
def ofFloat32 (v : Float32) : Json :=
  if v.isFinite then number (Binary32.print Binary32.wire v).toList else null

end GrammarArt.Json
