import GrammarArt.Random
import Mathlib.Data.UInt
import Mathlib.Logic.Function.Iterate

/-! # Mixing that loses nothing

A generator mixes the bits of a word in three ways: it adds to the word a moved copy of
itself, bit by bit, it multiplies the word by an odd constant, and it turns the word around.
Each of them can be undone.

Adding a moved copy is undone by three more of the same: where nothing is left of a word that
was moved four times, the word itself comes back (`addMoved_four_times`).  For, bits being
added modulo two, to do it twice is to add one copy that was moved twice, and to do that twice
is to add one that was moved four times.  Multiplication is undone by multiplying with an
inverse (`mul_bijective`), and a rotation by one that completes the circle
(`rotateLeft_rotateLeft`).
-/
namespace GrammarArt

theorem xor_xor_cancel_right (x y : UInt32) : (x ^^^ y) ^^^ y = x := by
  rw [UInt32.xor_assoc, UInt32.xor_self, UInt32.xor_zero]

theorem xor_xor_cancel_left (x y : UInt32) : x ^^^ (x ^^^ y) = y := by
  rw [← UInt32.xor_assoc, UInt32.xor_self, UInt32.zero_xor]

/-! ### Adding a moved copy -/

section Moved

variable {w : Nat} {move : BitVec w → BitVec w}

/-- A word to which a moved copy of it is added, bit by bit. -/
def addMoved (move : BitVec w → BitVec w) (x : BitVec w) : BitVec w := x ^^^ move x

theorem addMoved_twice (hmove : ∀ x y, move (x ^^^ y) = move x ^^^ move y) (x : BitVec w) :
    addMoved move (addMoved move x) = addMoved (move ∘ move) x := by
  calc
    addMoved move (addMoved move x) = (x ^^^ move x) ^^^ (move x ^^^ move (move x)) := by
      rw [addMoved, addMoved, hmove]
    _ = x ^^^ ((move x ^^^ move x) ^^^ move (move x)) := by ac_rfl
    _ = addMoved (move ∘ move) x := by rw [BitVec.xor_self, BitVec.zero_xor]; rfl

/-- **Added four times, a moved copy is gone**, if moving four times leaves nothing. -/
theorem addMoved_four_times (hmove : ∀ x y, move (x ^^^ y) = move x ^^^ move y)
    (hgone : ∀ x, move^[4] x = 0#w) (x : BitVec w) : (addMoved move)^[4] x = x := by
  have htwice (x y : BitVec w) :
      (move ∘ move) (x ^^^ y) = (move ∘ move) x ^^^ (move ∘ move) y := by
    rw [Function.comp_apply, hmove, hmove]
    rfl
  calc
    (addMoved move)^[4] x = addMoved (move ∘ move) (addMoved (move ∘ move) x) := by
      rw [← addMoved_twice hmove, ← addMoved_twice hmove]
      rfl
    _ = x ^^^ move^[4] x := addMoved_twice htwice x
    _ = x := by rw [hgone, BitVec.xor_zero]

end Moved

/-- A word to which it is added, moved down by `k` places. -/
def addMovedDown (k x : UInt64) : UInt64 := x ^^^ (x >>> k)

/-- A word to which it is added, moved up by `k` places. -/
def addMovedUp (k x : UInt32) : UInt32 := x ^^^ (x <<< k)

theorem addMovedDown_four_times {k : UInt64} (hk : 16 ≤ k) (hlt : k < 64) (x : UInt64) :
    (addMovedDown k)^[4] x = x := by
  have hplaces : 16 ≤ k.toNat := UInt64.le_iff_toNat_le.mp hk
  have hmod : k.toNat % 64 = k.toNat := Nat.mod_eq_of_lt (UInt64.lt_iff_toNat_lt.mp hlt)
  have hbits : Function.Semiconj UInt64.toBitVec (addMovedDown k) (addMoved (· >>> k.toNat)) :=
    fun x => by simp [addMovedDown, addMoved, hmod]
  have hgone (x : BitVec 64) : (fun x : BitVec 64 => x >>> k.toNat)^[4] x = 0#64 := by
    change x >>> k.toNat >>> k.toNat >>> k.toNat >>> k.toNat = 0#64
    rw [← BitVec.shiftRight_add, ← BitVec.shiftRight_add, ← BitVec.shiftRight_add]
    exact BitVec.ushiftRight_eq_zero (by omega)
  apply UInt64.toBitVec_inj.mp
  rw [hbits.iterate_right 4 x]
  exact addMoved_four_times (fun x y => BitVec.ushiftRight_xor_distrib x y _) hgone _

theorem addMovedUp_four_times {k : UInt32} (hk : 8 ≤ k) (hlt : k < 32) (x : UInt32) :
    (addMovedUp k)^[4] x = x := by
  have hplaces : 8 ≤ k.toNat := UInt32.le_iff_toNat_le.mp hk
  have hmod : k.toNat % 32 = k.toNat := Nat.mod_eq_of_lt (UInt32.lt_iff_toNat_lt.mp hlt)
  have hbits : Function.Semiconj UInt32.toBitVec (addMovedUp k) (addMoved (· <<< k.toNat)) :=
    fun x => by simp [addMovedUp, addMoved, hmod]
  have hgone (x : BitVec 32) : (fun x : BitVec 32 => x <<< k.toNat)^[4] x = 0#32 := by
    change x <<< k.toNat <<< k.toNat <<< k.toNat <<< k.toNat = 0#32
    rw [← BitVec.shiftLeft_add, ← BitVec.shiftLeft_add, ← BitVec.shiftLeft_add]
    exact BitVec.shiftLeft_eq_zero (by omega)
  apply UInt32.toBitVec_inj.mp
  rw [hbits.iterate_right 4 x]
  exact addMoved_four_times (fun x y => BitVec.shiftLeft_xor_distrib x y _) hgone _

theorem addMovedDown_bijective {k : UInt64} (hk : 16 ≤ k) (hlt : k < 64) :
    Function.Bijective (addMovedDown k) :=
  Function.bijective_iff_has_inverse.mpr ⟨(addMovedDown k)^[3],
    addMovedDown_four_times hk hlt, addMovedDown_four_times hk hlt⟩

/-! ### Multiplying -/

/-- Nothing is lost by multiplying with a word that has an inverse. -/
theorem mul_bijective {M : Type} [CommMonoid M] {factor : M} (inverse : M)
    (h : factor * inverse = 1) : Function.Bijective (· * factor) :=
  IsUnit.isUnit_iff_mulRight_bijective.mp (IsUnit.of_mul_eq_one inverse h)

/-! ### Rotating -/

namespace Xoshiro

theorem toBitVec_rotateLeft {k : UInt32} (hk : 0 < k) (hlt : k < 32) (x : UInt32) :
    (rotateLeft x k).toBitVec = x.toBitVec.rotateLeft k.toNat := by
  have hpos : 0 < k.toNat := UInt32.lt_iff_toNat_lt.mp hk
  have hplaces : k.toNat < 32 := UInt32.lt_iff_toNat_lt.mp hlt
  have hup : (k.toBitVec % 32).toNat = k.toNat := Nat.mod_eq_of_lt hplaces
  have hdown : ((32 - k).toBitVec % 32).toNat = 32 - k.toNat := by
    rw [BitVec.toNat_umod, UInt32.toNat_toBitVec,
      UInt32.toNat_sub_of_le _ _ (UInt32.le_of_lt hlt)]
    exact Nat.mod_eq_of_lt (Nat.sub_lt (by decide) hpos)
  rw [rotateLeft, BitVec.rotateLeft_def, UInt32.toBitVec_or, UInt32.toBitVec_shiftLeft,
    UInt32.toBitVec_shiftRight, BitVec.shiftLeft_eq', BitVec.ushiftRight_eq', hup, hdown,
    Nat.mod_eq_of_lt hplaces]

/-- A rotation is undone by one through the places that are left of the circle. -/
theorem rotateLeft_rotateLeft {k : UInt32} (hk : 0 < k) (hlt : k < 32) (x : UInt32) :
    rotateLeft (rotateLeft x k) (32 - k) = x := by
  have hpos : 0 < k.toNat := UInt32.lt_iff_toNat_lt.mp hk
  have hplaces : k.toNat < 32 := UInt32.lt_iff_toNat_lt.mp hlt
  have hrest : (32 - k).toNat = 32 - k.toNat := UInt32.toNat_sub_of_le _ _ (UInt32.le_of_lt hlt)
  have hrestPos : 0 < 32 - k :=
    UInt32.lt_iff_toNat_lt.mpr (hrest ▸ Nat.sub_pos_of_lt hplaces)
  have hrestLt : 32 - k < 32 :=
    UInt32.lt_iff_toNat_lt.mpr (hrest ▸ Nat.sub_lt (by decide) hpos)
  apply UInt32.toBitVec_inj.mp
  rw [toBitVec_rotateLeft hrestPos hrestLt, toBitVec_rotateLeft hk hlt, hrest]
  ext i hi
  simp only [BitVec.getElem_rotateLeft]
  -- In either rotation a bit moves up or comes around at the end.
  split <;> split <;> grind

end Xoshiro

end GrammarArt
