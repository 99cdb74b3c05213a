/-! # Weighted choice

Of entries with weights, a number `u` in `[0, 1)` chooses the first whose cumulative weight
exceeds the part `u` of the total.  Rounding can leave every cumulative weight at or below
that part when `u` is close to one; then the last entry of positive weight is chosen.  All
sums are formed from left to right.
-/
namespace GrammarArt

/-- The sum of all weights. -/
def totalWeight (weights : List Float32) : Float32 := weights.foldl (· + ·) (-0.0)

/-- The place of the first weight that raises the sum `before` above a threshold. -/
def firstAbove (threshold : Float32) (before : Float32) : List Float32 → Option Nat
  | [] => none
  | weight :: weights =>
    let sum := before + weight
    if threshold < sum then some 0 else (firstAbove threshold sum weights).map (· + 1)

/-- The place of the last positive weight. -/
def lastPositive : List Float32 → Option Nat
  | [] => none
  | weight :: weights =>
    match lastPositive weights with
    | some place => some (place + 1)
    | none => if 0 < weight then some 0 else none

/-- The place that `u` chooses; none if the total is not positive. -/
def chooseWeighted (weights : List Float32) (u : Float32) : Option Nat :=
  let total := totalWeight weights
  if 0 < total then (firstAbove (u * total) 0 weights).or (lastPositive weights) else none

end GrammarArt
