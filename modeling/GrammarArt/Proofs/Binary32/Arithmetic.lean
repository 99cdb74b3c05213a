import GrammarArt.Proofs.Binary32.Bits

/-! # Arithmetic of numbers

Every operation on numbers unpacks its operands, computes with what was unpacked, and packs
the result.  A number is what comes of packing what was unpacked of it (`packed_unpacked`), so
a law that holds of unpacked numbers holds of numbers.

What choosing by weight needs of arithmetic is here: adding a zero changes no comparison
(`lt_add_of_isZero`), and no part of a positive total is negative (`not_mul_lt_zero`).
Multiplication commutes (`mul_comm`), also where it gives no number.
-/
namespace GrammarArt.Binary32

open Float.Model (Format UnpackedFloat)
open Float.Model.UnpackedFloat (Sign packComponents unpackSign unpackExponent unpackMantissa)

/-- The sign, the mantissa and the exponent of a number. -/
def unpacked (v : Float32) : UnpackedFloat :=
  UnpackedFloat.unpack Format.binary32 v.toBits.toBitVec

/-- The number of a sign, a mantissa and an exponent. -/
def packed (f : UnpackedFloat) : Float32 := .ofModel (.pack f)

theorem unpacked_packed (f : UnpackedFloat) : unpacked (packed f) =
    UnpackedFloat.unpack Format.binary32 (UnpackedFloat.pack Format.binary32 f) := rfl

theorem pack_unpack_of_valid {b : Bits} (h : Format.binary32.Valid b) :
    UnpackedFloat.pack Format.binary32 (UnpackedFloat.unpack Format.binary32 b) = b := by
  by_cases he : unpackExponent b = -1#8
  · rw [UnpackedFloat.unpack, if_pos he]
    by_cases hm : unpackMantissa b = 0#23
    · rw [if_pos hm]
      exact packComponents_eq he hm
    · rw [if_neg hm]
      exact (h.eq_packedNaN he hm).symm
  · exact pack_unpack he

/-- **Packing undoes unpacking.** -/
theorem packed_unpacked (v : Float32) : packed (unpacked v) = v :=
  toBits_inj (congrArg UInt32.ofBitVec (pack_unpack_of_valid v.toModel.valid))

theorem unpacked_packed_zero (s : Sign) : unpacked (packed (.zero s)) = .zero s := by
  cases s <;> rfl

theorem lt_iff {v w : Float32} : v < w ↔ (unpacked v).lt (unpacked w) = true := by
  show decide (v.toModel < w.toModel) = true ↔ _
  rw [decide_eq_true_iff]
  rfl

theorem le_iff {v w : Float32} : v ≤ w ↔ (unpacked v).le (unpacked w) = true := by
  show decide (v.toModel ≤ w.toModel) = true ↔ _
  rw [decide_eq_true_iff]
  rfl

theorem le_of_lt {v w : Float32} (h : v < w) : v ≤ w := by
  rw [lt_iff, UnpackedFloat.lt] at h
  rw [le_iff, UnpackedFloat.le, eq_of_beq h]
  rfl

theorem unpacked_zero : unpacked 0 = .zero .positive := rfl

/-! ### Zeros -/

/-- The number is a zero of either sign. -/
def IsZero (v : Float32) : Prop := ∃ s, unpacked v = .zero s

/-- A number that is neither positive nor negative is a zero. -/
theorem isZero_of_le {v : Float32} (h : 0 ≤ v) (hpos : ¬ 0 < v) : IsZero v := by
  rw [le_iff, unpacked_zero] at h
  rw [lt_iff, unpacked_zero] at hpos
  rw [IsZero]
  cases hv : unpacked v with
  | zero s => exact ⟨s, rfl⟩
  | notANumber =>
    rw [hv] at h
    cases h
  | infinity s | finite s =>
    rw [hv] at h hpos
    cases s with
    | positive => exact absurd rfl hpos
    | negative => cases h

/-- What is compared with a zero is not compared with its sign. -/
theorem compare_zero (f : UnpackedFloat) (s s' : Sign) :
    f.compare (.zero s) = f.compare (.zero s') := by
  cases f with
  | notANumber | zero _ => rfl
  | infinity sign | finite sign => cases sign <;> rfl

/-- **Adding a zero changes no comparison.** -/
theorem lt_add_of_isZero {t v w : Float32} (hw : IsZero w) : t < v + w ↔ t < v := by
  obtain ⟨s, hs⟩ := hw
  have hadd : v + w = packed (UnpackedFloat.add Format.binary32 (unpacked v) (.zero s)) := by
    rw [← hs]
    rfl
  cases hv : unpacked v with
  | zero s' =>
    obtain ⟨s'', hsum⟩ : ∃ s'', v + w = packed (.zero s'') := by
      rw [hadd, hv]
      cases s <;> cases s' <;> exact ⟨_, rfl⟩
    rw [lt_iff, lt_iff, hsum, unpacked_packed_zero, hv, UnpackedFloat.lt, UnpackedFloat.lt,
      compare_zero _ s'' s']
  | _ =>
    rw [hv] at hadd
    have hsame : v + w = packed (unpacked v) := by
      rw [hadd, hv]
      rfl
    rw [hsame, packed_unpacked]

/-! ### Signs -/

theorem unpackSign_packComponents (s : Sign) (e : BitVec 8) (m : BitVec 23) :
    unpackSign (packComponents Format.binary32 s e m) = s.toBitVec := by
  apply BitVec.eq_of_toNat_eq
  rw [toNat_unpackSign, packComponents, BitVec.toNat_append, BitVec.toNat_append,
    ← Nat.shiftLeft_add_eq_or_of_lt e.isLt, ← Nat.shiftLeft_add_eq_or_of_lt m.isLt,
    Nat.shiftLeft_eq, Nat.shiftLeft_eq, signBit]
  have he := e.isLt
  have hm := m.isLt
  omega

/-- The number is a zero, has the positive sign, or is no number. -/
inductive NotNegative : UnpackedFloat → Prop where
  | notANumber : NotNegative .notANumber
  | infinity : NotNegative (.infinity .positive)
  | zero (s : Sign) : NotNegative (.zero s)
  | finite (m : Nat) (e : Int) (hm : 0 < m) : NotNegative (.finite .positive m e hm)

theorem notNegative_unpack {b : Bits} (h : unpackSign b = 0#1) :
    NotNegative (UnpackedFloat.unpack Format.binary32 b) := by
  rw [UnpackedFloat.unpack, h]
  split
  · split
    · exact .infinity
    · exact .notANumber
  · split
    · split
      · exact .zero _
      · exact .finite _ _ _
    · exact .finite _ _ _

/-- Packing keeps the sign. -/
theorem NotNegative.packed {f : UnpackedFloat} (h : NotNegative f) :
    NotNegative (unpacked (packed f)) := by
  have hcomponents (e : BitVec 8) (m : BitVec 23) : NotNegative (UnpackedFloat.unpack
      Format.binary32 (packComponents Format.binary32 .positive e m)) :=
    notNegative_unpack (unpackSign_packComponents _ _ _)
  cases h with
  | notANumber => exact hcomponents _ _
  | infinity => exact hcomponents _ _
  | zero s =>
    rw [unpacked_packed_zero]
    exact .zero s
  | finite m e hm =>
    rw [unpacked_packed, UnpackedFloat.pack]
    simp only
    split
    · exact hcomponents _ _
    · split
      · exact hcomponents _ _
      · exact hcomponents _ _

theorem notNegative_of_le {v : Float32} (h : 0 ≤ v) : NotNegative (unpacked v) := by
  rw [le_iff, unpacked_zero] at h
  cases hv : unpacked v with
  | notANumber => exact .notANumber
  | zero s => exact .zero s
  | infinity s =>
    cases s with
    | positive => exact .infinity
    | negative =>
      rw [hv] at h
      cases h
  | finite s m e hm =>
    cases s with
    | positive => exact .finite m e hm
    | negative =>
      rw [hv] at h
      cases h

theorem NotNegative.not_lt_zero {f : UnpackedFloat} (h : NotNegative f) (s : Sign) :
    f.lt (.zero s) = false := by
  cases h with
  | notANumber | infinity | zero _ | finite _ _ _ => rfl

theorem NotNegative.mul {f g : UnpackedFloat} (hf : NotNegative f) (hg : NotNegative g) :
    NotNegative (UnpackedFloat.mul Format.binary32 f g) := by
  cases hf with
  | notANumber => exact .notANumber
  | infinity => cases hg <;> constructor
  | zero s => cases hg <;> constructor
  | finite m e hm =>
    cases hg with
    | finite m' e' hm' =>
      show NotNegative (UnpackedFloat.roundWithAccuracy _ .positive _ _ _)
      unfold UnpackedFloat.roundWithAccuracy
      simp only
      split
      · exact .zero _
      · exact .finite _ _ _
    | _ => constructor

/-- **No part of a positive total is negative.** -/
theorem not_mul_lt_zero {u v : Float32} (hu : 0 ≤ u) (hv : 0 ≤ v) : ¬ u * v < 0 := by
  have h := ((notNegative_of_le hu).mul (notNegative_of_le hv)).packed.not_lt_zero .positive
  rw [lt_iff, Bool.not_eq_true]
  exact h

/-! ### Multiplication -/

theorem unpacked_mul_comm (f g : UnpackedFloat) :
    UnpackedFloat.mul Format.binary32 f g = UnpackedFloat.mul Format.binary32 g f := by
  have hsign (s t : Sign) : s * t = t * s := by
    cases s <;> cases t <;> rfl
  cases f with
  | notANumber => cases g <;> rfl
  | infinity s | zero s =>
    cases g with
    | notANumber => rfl
    | infinity t | zero t | finite t m e hm => simp only [UnpackedFloat.mul, hsign s t]
  | finite s m e hm =>
    cases g with
    | notANumber => rfl
    | infinity t | zero t => simp only [UnpackedFloat.mul, hsign s t]
    | finite t n e' hn =>
      simp only [UnpackedFloat.mul, hsign s t, Nat.mul_comm m n, Int.add_comm e e']

/-- **Multiplication commutes.** -/
theorem mul_comm (v w : Float32) : v * w = w * v :=
  congrArg packed (unpacked_mul_comm (unpacked v) (unpacked w))

end GrammarArt.Binary32
