/-! # Memory

No object in memory has `2 ^ 63` bytes or more.  Asking for one is not a failure that could
be reported to whoever asked: it ends the work on the spot, without a result.  What may end
in this way has a value of type `Except Exhausted _`; that smaller objects find room is taken
for granted.
-/
namespace GrammarArt

/-- The end of work that asked for an object of so many bytes. -/
structure Exhausted where
  bytes : Nat
  deriving DecidableEq, Repr

namespace Memory

/-- The number of bytes from which on there is no object. -/
def limit : Nat := Nat.pow 2 63

/-- Room for an object of `count` parts of `size` bytes. -/
def reserve (count size : Nat) : Except Exhausted Unit :=
  if limit ≤ count * size then .error ⟨count * size⟩ else .ok ()

theorem reserve_eq_ok_iff {count size : Nat} :
    reserve count size = .ok () ↔ count * size < limit := by
  unfold reserve
  split <;> simp <;> omega

end Memory

end GrammarArt
