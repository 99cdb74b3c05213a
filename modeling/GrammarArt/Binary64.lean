import GrammarArt.Binary32.Basic

/-! # Numbers by way of double precision

A decimal can be read in double precision and then made a single.  Three roundings to 53
bits come before the last one: of the digits, of the power of ten, and of their product or
quotient.  All four are exact questions about naturals, a positive number being kept as a
quotient of two of them.
-/
namespace GrammarArt.Binary64

/-- A number that is not negative, as a quotient. -/
structure Quotient where
  num : Nat
  den : Nat
  deriving DecidableEq, Repr

/-- The quotient with 53 leading bits that is nearest to a quotient, of two equally near the
one with an even last bit. -/
def Quotient.round (q : Quotient) : Quotient :=
  let lift := 53 + q.den.log2
  let scaled := q.num * Nat.pow 2 lift
  let shift := (scaled / q.den).log2 - 52
  let kept := scaled / q.den / Nat.pow 2 shift
  let step := Nat.pow 2 shift * q.den
  let dropped := 2 * (scaled - kept * step)
  let rounded := if step < dropped ∨ step = dropped ∧ kept % 2 = 1 then kept + 1 else kept
  ⟨rounded * Nat.pow 2 shift, Nat.pow 2 lift⟩

/-- A natural in double precision. -/
def ofNat (n : Nat) : Quotient := Quotient.round ⟨n, 1⟩

/-- The magnitude of the single nearest to a quotient. -/
def Quotient.magnitude (q : Quotient) : Nat := Binary32.nearest q.num q.den

/-- The magnitude of `digits · 10 ^ exponent`, for digits below `2⁶⁴`; none if it is beyond
all doubles.  Divided by `10³⁰⁹` or more, such digits are less than half the least single. -/
def magnitude? (digits : Nat) : (exponent : Int) → Option Nat
  | .ofNat e =>
    let f := ofNat digits
    if digits = 0 then some 0
    else if 308 < e then none
    else
      let power := ofNat (Nat.pow 10 e)
      let product := Quotient.round ⟨f.num * power.num, f.den * power.den⟩
      if Nat.pow 2 1024 * product.den ≤ product.num then none else some product.magnitude
  | .negSucc e =>
    let f := ofNat digits
    if 308 < e + 1 then some 0
    else
      let power := ofNat (Nat.pow 10 (e + 1))
      some (Quotient.round ⟨f.num * power.den, f.den * power.num⟩).magnitude

end GrammarArt.Binary64
