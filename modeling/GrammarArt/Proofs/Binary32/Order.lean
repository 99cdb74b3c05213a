import GrammarArt.Proofs.Binary32.Nearest
import GrammarArt.Proofs.Binary32.Positive

/-! # The order of numbers that are not negative

Numbers are compared by sign, exponent and mantissa.  Among numbers that are not negative this is
the order of their magnitude bits, of infinity too, and of both zeros, which have no bits set but
the sign bit (`compare_eq`, `lt_iff_magnitude`, `le_iff_magnitude`).  So these numbers are ordered
as naturals are, which is all that is needed of the order elsewhere.
-/
namespace GrammarArt.Binary32

open Float.Model (Format UnpackedFloat)
open Float.Model.UnpackedFloat

variable {v w : Float32}

/-! ### What a magnitude is unpacked to -/

section
variable {b : Bits} {n : Nat} (hn : b.toNat % signBit = n)

include hn

/-- A magnitude consists of the fields of exponent and mantissa. -/
theorem magnitude_eq_fields : n = (unpackExponent b).toNat * binade + (unpackMantissa b).toNat ∧
    (unpackExponent b).toNat < 256 ∧ (unpackMantissa b).toNat < binade := by
  have hbound : b.toNat < 4294967296 := b.isLt
  refine ⟨?_, (unpackExponent b).isLt, (unpackMantissa b).isLt⟩
  rw [toNat_unpackExponent, toNat_unpackMantissa, ← hn]
  unfold signBit binade
  omega

/-- The largest exponent is that of infinity, and of what is no number. -/
theorem unpack_of_largest (hlargest : unpackExponent b = -1#8) :
    (infinityBits < n ∧ UnpackedFloat.unpack Format.binary32 b = .notANumber) ∨
      (n = infinityBits ∧ ∃ s, UnpackedFloat.unpack Format.binary32 b = .infinity s) := by
  obtain ⟨hfields, -, -⟩ := magnitude_eq_fields hn
  have h255 : (unpackExponent b).toNat = 255 := by
    rw [hlargest]
    rfl
  rw [UnpackedFloat.unpack, if_pos hlargest]
  by_cases hzero : unpackMantissa b = 0#23
  · have h0 : (unpackMantissa b).toNat = 0 := by
      rw [hzero]
      rfl
    rw [if_pos hzero]
    refine .inr ⟨?_, _, rfl⟩
    rw [hfields, h255, h0]
    rfl
  · have hne : (unpackMantissa b).toNat ≠ 0 := fun h => hzero (BitVec.eq_of_toNat_eq h)
    rw [if_neg hzero]
    refine .inl ⟨?_, rfl⟩
    unfold infinityBits binade at *
    omega

/-- The least exponent is that of zero, and of the numbers whose mantissa is short. -/
theorem unpack_of_least (hleast : unpackExponent b = 0#8) :
    (n = 0 ∧ ∃ s, UnpackedFloat.unpack Format.binary32 b = .zero s) ∨
      (0 < n ∧ n < infinityBits ∧ ∃ s m e hm,
        UnpackedFloat.unpack Format.binary32 b = .finite s m e hm ∧
          m = kept n ∧ e = (shift n : Int) - 149) := by
  obtain ⟨hfields, -, hshort⟩ := magnitude_eq_fields hn
  have hlargest : unpackExponent b ≠ -1#8 := by
    rw [hleast]
    decide
  have h0 : (unpackExponent b).toNat = 0 := by
    rw [hleast]
    rfl
  rw [UnpackedFloat.unpack, if_neg hlargest, if_pos hleast]
  by_cases hzero : unpackMantissa b = 0#23
  · have hm0 : (unpackMantissa b).toNat = 0 := by
      rw [hzero]
      rfl
    rw [dif_pos hzero]
    refine .inl ⟨?_, _, rfl⟩
    rw [hfields, h0, hm0, Nat.zero_mul]
  · have hne : (unpackMantissa b).toNat ≠ 0 := fun h => hzero (BitVec.eq_of_toNat_eq h)
    rw [dif_neg hzero]
    refine .inr ⟨?_, ?_, _, _, _, _, rfl, ?_, ?_⟩
    · omega
    · unfold infinityBits binade at *
      omega
    · unfold kept shift binade at *
      omega
    · rw [h0]
      show (0 : Int) - 150 + 1 = _
      unfold shift binade at *
      omega

/-- All other exponents are those of the numbers whose mantissa is full. -/
theorem unpack_of_between (hlargest : unpackExponent b ≠ -1#8) (hleast : unpackExponent b ≠ 0#8) :
    0 < n ∧ n < infinityBits ∧ ∃ s m e hm,
      UnpackedFloat.unpack Format.binary32 b = .finite s m e hm ∧
        m = kept n ∧ e = (shift n : Int) - 149 := by
  obtain ⟨hfields, hlt, hshort⟩ := magnitude_eq_fields hn
  have hne255 : (unpackExponent b).toNat ≠ 255 := fun h => hlargest (BitVec.eq_of_toNat_eq h)
  have hne0 : (unpackExponent b).toNat ≠ 0 := fun h => hleast (BitVec.eq_of_toNat_eq h)
  rw [UnpackedFloat.unpack, if_neg hlargest, if_neg hleast]
  refine ⟨?_, ?_, _, _, _, _, rfl, ?_, ?_⟩
  · unfold binade at *
    omega
  · unfold infinityBits binade at *
    omega
  · rw [toNat_one_append]
    unfold kept shift binade at *
    omega
  · show ((unpackExponent b).toNat : Int) - 150 = _
    unfold shift binade at *
    omega

/-- Bits are unpacked to no number, to a zero, to the mantissa and the exponent of their magnitude,
or to infinity. -/
theorem unpack_cases :
    (infinityBits < n ∧ UnpackedFloat.unpack Format.binary32 b = .notANumber) ∨
      (n = 0 ∧ ∃ s, UnpackedFloat.unpack Format.binary32 b = .zero s) ∨
      (0 < n ∧ n < infinityBits ∧ ∃ s m e hm,
        UnpackedFloat.unpack Format.binary32 b = .finite s m e hm ∧
          m = kept n ∧ e = (shift n : Int) - 149) ∨
      (n = infinityBits ∧ ∃ s, UnpackedFloat.unpack Format.binary32 b = .infinity s) := by
  by_cases hlargest : unpackExponent b = -1#8
  · rcases unpack_of_largest hn hlargest with hnone | hinfinity
    · exact .inl hnone
    · exact .inr (.inr (.inr hinfinity))
  · by_cases hleast : unpackExponent b = 0#8
    · rcases unpack_of_least hn hleast with hzero | hfinite
      · exact .inr (.inl hzero)
      · exact .inr (.inr (.inl hfinite))
    · exact .inr (.inr (.inl (unpack_of_between hn hlargest hleast)))

end

/-- A number that is not negative is a zero, infinity, or finite with the mantissa and the exponent
of its magnitude. -/
theorem unpacked_cases (h : 0 ≤ v) :
    (magnitude v = 0 ∧ ∃ s, unpacked v = .zero s) ∨
      (0 < magnitude v ∧ magnitude v < infinityBits ∧ ∃ m e hm,
        unpacked v = .finite .positive m e hm ∧ m = kept (magnitude v) ∧
          e = (shift (magnitude v) : Int) - 149) ∨
      (magnitude v = infinityBits ∧ unpacked v = .infinity .positive) := by
  have hnotNegative := notNegative_of_le h
  rcases unpack_cases (b := v.toBits.toBitVec) (n := magnitude v) rfl with
    ⟨-, hnone⟩ | ⟨hzero, s, hs⟩ | ⟨hpos, hfinite, s, m, e, hm, hv, hkept, hshift⟩ |
      ⟨hinfinity, s, hs⟩
  · rw [le_iff, unpacked, unpacked, hnone] at h
    cases h
  · exact .inl ⟨hzero, s, hs⟩
  · rw [unpacked, hv] at hnotNegative
    cases hnotNegative
    exact .inr (.inl ⟨hpos, hfinite, m, e, hm, hv, hkept, hshift⟩)
  · rw [unpacked, hs] at hnotNegative
    cases hnotNegative
    exact .inr (.inr ⟨hinfinity, hs⟩)

/-! ### The order -/

/-- Magnitudes are ordered by their exponents, and those of one exponent by their mantissas. -/
theorem lt_iff_shift {b c : Nat} :
    b < c ↔ shift b < shift c ∨ shift b = shift c ∧ kept b < kept c := by
  unfold kept shift binade
  omega

theorem compare_fields (b c : Nat) :
    (compare ((shift b : Int) - 149) (shift c - 149)).then (compare (kept b) (kept c)) =
      compare b c := by
  rcases Nat.lt_trichotomy b c with hlt | rfl | hgt
  · rw [Nat.compare_eq_lt.mpr hlt, Ordering.then_eq_lt, Int.compare_eq_lt, Int.compare_eq_eq,
      Nat.compare_eq_lt]
    have hfields := lt_iff_shift.mp hlt
    omega
  · rw [Int.compare_eq_eq.mpr rfl, Nat.compare_eq_eq.mpr rfl, Nat.compare_eq_eq.mpr rfl]
    rfl
  · rw [Nat.compare_eq_gt.mpr hgt, Ordering.then_eq_gt, Int.compare_eq_gt, Int.compare_eq_eq,
      Nat.compare_eq_gt]
    have hfields := lt_iff_shift.mp hgt
    omega

/-- **Numbers that are not negative are compared as their magnitudes are.** -/
theorem compare_eq (hv : 0 ≤ v) (hw : 0 ≤ w) :
    (unpacked v).compare (unpacked w) = some (compare (magnitude v) (magnitude w)) := by
  have hgt {b c : Nat} (h : c < b) : some Ordering.gt = some (compare b c) :=
    congrArg some (Nat.compare_eq_gt.mpr h).symm
  have hlt {b c : Nat} (h : b < c) : some Ordering.lt = some (compare b c) :=
    congrArg some (Nat.compare_eq_lt.mpr h).symm
  have heq {b c : Nat} (h : b = c) : some Ordering.eq = some (compare b c) :=
    congrArg some (Nat.compare_eq_eq.mpr h).symm
  rcases unpacked_cases hv with
    ⟨hvzero, s, hv⟩ | ⟨hvpos, hvfinite, m, e, hm, hv, hkept, hshift⟩ | ⟨hvinfinity, hv⟩
  · rcases unpacked_cases hw with
      ⟨hwzero, s', hw⟩ | ⟨hwpos, hwfinite, m', e', hm', hw, -, -⟩ | ⟨hwinfinity, hw⟩
    · rw [hv, hw]
      exact heq (hvzero.trans hwzero.symm)
    · rw [hv, hw]
      exact hlt (by omega)
    · rw [hv, hw]
      exact hlt (by rw [hvzero, hwinfinity]; decide)
  · rcases unpacked_cases hw with
      ⟨hwzero, s', hw⟩ | ⟨hwpos, hwfinite, m', e', hm', hw, hkept', hshift'⟩ | ⟨hwinfinity, hw⟩
    · rw [hv, hw]
      exact hgt (by omega)
    · rw [hv, hw]
      show some ((compare e e').then (compare m m')) = _
      rw [hkept, hshift, hkept', hshift', compare_fields]
    · rw [hv, hw]
      exact hlt (by omega)
  · rcases unpacked_cases hw with
      ⟨hwzero, s', hw⟩ | ⟨hwpos, hwfinite, m', e', hm', hw, -, -⟩ | ⟨hwinfinity, hw⟩
    · rw [hv, hw]
      exact hgt (by rw [hwzero, hvinfinity]; decide)
    · rw [hv, hw]
      exact hgt (by omega)
    · rw [hv, hw]
      exact heq (hvinfinity.trans hwinfinity.symm)

theorem lt_iff_magnitude (hv : 0 ≤ v) (hw : 0 ≤ w) : v < w ↔ magnitude v < magnitude w := by
  rw [lt_iff, UnpackedFloat.lt, compare_eq hv hw, beq_iff_eq, Option.some.injEq,
    Nat.compare_eq_lt]

theorem le_iff_magnitude (hv : 0 ≤ v) (hw : 0 ≤ w) : v ≤ w ↔ magnitude v ≤ magnitude w := by
  rw [le_iff, UnpackedFloat.le, compare_eq hv hw, Option.any_some, Nat.isLE_compare]

/-! ### Numbers of a given magnitude -/

theorem zero_le_of_notNegative (h : NotNegative (unpacked v)) (hv : magnitude v ≤ infinityBits) :
    0 ≤ v := by
  have hnumber : unpacked v ≠ .notANumber := by
    intro hnone
    rcases unpack_cases (b := v.toBits.toBitVec) (n := magnitude v) rfl with
      ⟨hlarge, -⟩ | ⟨-, s, hs⟩ | ⟨-, -, s, m, e, hm, hs, -⟩ | ⟨-, s, hs⟩
    · omega
    · cases hnone.symm.trans hs
    · cases hnone.symm.trans hs
    · cases hnone.symm.trans hs
  rw [le_iff, unpacked_zero]
  generalize unpacked v = f at h hnumber
  cases h with
  | notANumber => exact absurd rfl hnumber
  | infinity | zero s | finite m e hm => rfl

/-- A magnitude up to that of infinity is that of a number that is not negative. -/
theorem ofMagnitude_spec {b : Nat} (hb : b ≤ infinityBits) :
    0 ≤ ofMagnitude false b ∧ magnitude (ofMagnitude false b) = b := by
  rcases hb.eq_or_lt with rfl | hlt
  · decide
  · have hmagnitude := magnitude_ofMagnitude false hlt
    refine ⟨zero_le_of_notNegative (notNegative_unpack ?_) (hmagnitude.trans_le hb), hmagnitude⟩
    apply BitVec.eq_of_toNat_eq
    have hbits : (ofMagnitude false b).toBits.toBitVec.toNat = b := toNat_ofMagnitude false hlt
    rw [toNat_unpackSign, hbits]
    show b / 2147483648 = 0
    unfold infinityBits binade at hlt
    omega

end GrammarArt.Binary32
