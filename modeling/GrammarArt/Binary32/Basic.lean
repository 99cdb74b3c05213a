/-! # Single-precision numbers as naturals

The 31 magnitude bits of a single, read as a natural number `b`, are ordered as the
magnitudes they stand for, and every finite magnitude is a whole number of *units*
of `2⁻¹⁴⁹`, the least positive single (`units`).  So exact questions about singles are
questions about naturals:

* `nearest num den` is the single closest to a quotient of naturals, a tie going to
  the even bits;
* `remainder a b` is the exact remainder of a division that truncates: the units of
  `a` modulo the units of `b`, with the sign of `a`.

Arithmetic itself is `Float32`'s own.
-/
namespace GrammarArt.Binary32

/-- The number of magnitudes that share an exponent, `2²³`. -/
def binade : Nat := 0x800000

/-- The magnitude bits of infinity; smaller magnitudes are finite, larger ones are not numbers. -/
def infinityBits : Nat := 255 * binade

/-- The number of units in one. -/
def unitsInOne : Nat := Nat.pow 2 149

/-- The value of the sign bit. -/
def signBit : Nat := 0x80000000

/-- The size of a finite magnitude in units of `2⁻¹⁴⁹`. -/
def units (b : Nat) : Nat :=
  if b < binade then b else (binade + b % binade) * Nat.pow 2 (b / binade - 1)

/-- The magnitude bits of a number. -/
def magnitude (v : Float32) : Nat := v.toBits.toNat % signBit

/-- Whether the sign bit of a number is set; it is for `-0`. -/
def negative (v : Float32) : Bool := signBit ≤ v.toBits.toNat

/-- The number of a sign and 31 magnitude bits. -/
def ofMagnitude (sign : Bool) (b : Nat) : Float32 :=
  Float32.ofBits (UInt32.ofNat (if sign then b + signBit else b))

/-- The magnitude nearest to `num / den`, of two equally near the one with even bits, and
infinity from halfway above the largest finite magnitude on.

The quotient is taken in units; all but its 24 leading bits are dropped, and what was
dropped, twice over, is compared with one unit of the last bit kept.  A carry out of the
24 bits needs no care: it raises the exponent bits by one. -/
def nearest (num den : Nat) : Nat :=
  let scaled := num * unitsInOne
  let shift := (scaled / den).log2 - 23
  let kept := scaled / den / Nat.pow 2 shift
  let step := Nat.pow 2 shift * den
  let dropped := 2 * (scaled - kept * step)
  let rounded := if step < dropped ∨ step = dropped ∧ kept % 2 = 1 then kept + 1 else kept
  min infinityBits (rounded + shift * binade)

/-- The remainder of the division of `a` by `b` that truncates towards zero.  It is exact:
the remainder of two whole numbers of units has no more bits than the divisor. -/
def remainder (a b : Float32) : Float32 :=
  if a.isNaN || b.isNaN || a.isInf || b == 0 then Float32.ofBits 0x7fc00000
  else if b.isInf then a
  else ofMagnitude (negative a)
    (nearest (units (magnitude a) % units (magnitude b)) unitsInOne)

end GrammarArt.Binary32
