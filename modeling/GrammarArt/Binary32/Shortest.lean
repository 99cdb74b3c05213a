import GrammarArt.Binary32.Basic

/-! # The fewest digits that read back

A finite single is printed as the decimal with the fewest digits among those that are
nearest to no other single, and as the closest of these.

Fewer digits mean a coarser grid of powers of ten, so `shortest` tries the grids from
coarse to fine.  On each it tests the two points next to the number: if any point of the
grid reads back as the number, one of these does.  Of two that do the nearer is taken;
when both are equally near, which one is a convention of the format (`Tie`).
-/
namespace GrammarArt.Binary32

/-- The number `digits · 10 ^ exponent`. -/
structure Decimal where
  digits : Nat
  exponent : Int
  deriving DecidableEq, Repr

/-- The magnitude nearest to a decimal.

Exponents are not bounded by the length of the text they are written in, so two cases are
settled before any power of ten is formed: from `10³⁹` on a number is infinite, and a
number whose digits have fewer than `3k - 150` bits is, divided by `10ᵏ`, less than half a
unit. -/
def Decimal.nearest (d : Decimal) : Nat :=
  match d.exponent with
  | .ofNat e =>
    if d.digits = 0 then 0
    else if 39 ≤ e then infinityBits
    else Binary32.nearest (d.digits * Nat.pow 10 e) 1
  | .negSucc e =>
    if d.digits.log2 + 151 ≤ 3 * (e + 1) then 0
    else Binary32.nearest d.digits (Nat.pow 10 (e + 1))

/-- Which of two equally near decimals with the fewest digits is printed: the larger one,
or the one whose last digit is even. -/
inductive Tie where
  | larger
  | even
  deriving DecidableEq, Repr

/-- `num / 10 ^ grid`, rounded down, for a number of `num` half units. -/
def gridPoint (half : Nat) (grid : Int) : Nat :=
  match grid with
  | .ofNat k => half / (2 * unitsInOne * Nat.pow 10 k)
  | .negSucc k => half * Nat.pow 10 (k + 1) / (2 * unitsInOne)

/-- Whether a number of `half` half units lies exactly on the points of a grid. -/
def onGrid (half : Nat) (grid : Int) : Bool :=
  match grid with
  | .ofNat k => half % (2 * unitsInOne * Nat.pow 10 k) = 0
  | .negSucc k => half * Nat.pow 10 (k + 1) % (2 * unitsInOne) = 0

/-- The point of a grid that reads back as the magnitude `b` and is closest to it. -/
def closest (tie : Tie) (b : Nat) (grid : Int) : Option Decimal :=
  let half := 2 * units b
  let below : Decimal := ⟨gridPoint half grid, grid⟩
  let above : Decimal := ⟨gridPoint half grid + 1, grid⟩
  match decide (below.digits ≠ 0 ∧ below.nearest = b), decide (above.nearest = b) with
  | false, false => none
  | true, false => some below
  | false, true => some above
  | true, true =>
    let nearerBelow := gridPoint (2 * half) grid = 2 * below.digits
    let tied := onGrid (2 * half) grid ∧ tie = .even ∧ below.digits % 2 = 0
    if nearerBelow ∨ tied then some below else some above

/-- The closest readable point of the first of `n` grids that has one, the first being
`10 ^ grid` and each next one ten times finer; the exact value when none has. -/
def firstReadable (tie : Tie) (b : Nat) : Nat → Int → Decimal
  | 0, _ => ⟨units b * Nat.pow 5 149, -149⟩
  | n + 1, grid => (closest tie b grid).getD (firstReadable tie b n (grid - 1))

/-- The decimal with the fewest digits that reads back as a finite magnitude.

`10⁴⁵` times the number is at least one, which gives the place of its leading digit; nine
digits always suffice, and the leading one may be a carry. -/
def shortest (tie : Tie) (b : Nat) : Decimal :=
  if b = 0 then ⟨0, 0⟩
  else
    let places := (Nat.toDigits 10 (units b * Nat.pow 10 45 / unitsInOne)).length
    firstReadable tie b 11 (places - 45)

end GrammarArt.Binary32
