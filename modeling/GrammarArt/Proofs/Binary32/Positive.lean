import GrammarArt.Proofs.Binary32.Bound
import GrammarArt.Proofs.Binary32.Nearest

/-! # Positive sums

Rounding can make a positive number zero, but not a sum: its operands have no bits below the last
place of the smallest number there is, and so neither has the sum.  So a sum of two numbers that
are not negative is positive exactly if one of them is (`add_pos_iff`), and this is so also where
the sum is too large to be finite.
-/
namespace GrammarArt.Binary32

open Float.Model (Format UnpackedFloat)
open Float.Model.UnpackedFloat

/-- The number is positive, and all its bits have a place in a single. -/
inductive Positive : UnpackedFloat → Prop where
  | infinity : Positive (.infinity .positive)
  | finite (m : Nat) (e : Int) (hm : 0 < m) (hbits : m < 2 * binade) (he : -149 ≤ e) :
    Positive (.finite .positive m e hm)

variable {m : Nat} {e : Int}

/-! ### Numbers and their fields -/

theorem toBitVec_positive : Sign.ofBitVec Sign.positive.toBitVec = .positive := rfl

/-- The bits of a finite number have their places. -/
theorem places_of_unpack {b : Bits} {s : Sign} {hm : 0 < m}
    (h : UnpackedFloat.unpack Format.binary32 b = .finite s m e hm) :
    m < 2 * binade ∧ -149 ≤ e := by
  have hmantissa : (unpackMantissa b).toNat < binade := (unpackMantissa b).isLt
  rw [UnpackedFloat.unpack] at h
  simp only at h
  split at h
  · split at h
    · cases h
    · cases h
  · split at h
    · split at h
      · cases h
      · rename_i hzero _
        cases h
        refine ⟨by omega, ?_⟩
        rw [hzero]
        decide
    · cases h
      rw [toNat_one_append]
      refine ⟨by omega, ?_⟩
      show -149 ≤ ((unpackExponent b).toNat : Int) - 150
      rename_i hne
      have hpos : (unpackExponent b).toNat ≠ 0 := fun h0 => hne (BitVec.eq_of_toNat_eq h0)
      omega

theorem positive_iff {v : Float32} : 0 < v ↔ Positive (unpacked v) := by
  rw [lt_iff, unpacked_zero]
  constructor
  · intro h
    cases hv : unpacked v with
    | notANumber | zero s =>
      rw [hv] at h
      cases h
    | infinity s =>
      cases s with
      | positive => exact .infinity
      | negative =>
        rw [hv] at h
        cases h
    | finite s m e hm =>
      obtain ⟨hbits, he⟩ := places_of_unpack hv
      cases s with
      | positive => exact .finite m e hm hbits he
      | negative =>
        rw [hv] at h
        cases h
  · intro h
    generalize unpacked v = f at h
    cases h <;> rfl

theorem positive_unpack {b : BitVec 8} {n : BitVec 23} (hb : b ≠ -1#8)
    (hne : b = 0#8 → n ≠ 0#23) :
    Positive (UnpackedFloat.unpack Format.binary32
      (packComponents Format.binary32 .positive b n)) := by
  have hn : n.toNat < binade := n.isLt
  rw [UnpackedFloat.unpack]
  simp only [unpackExponent_packComponents, unpackMantissa_packComponents,
    unpackSign_packComponents, toBitVec_positive]
  rw [if_neg hb]
  by_cases hzero : b = 0#8
  · rw [if_pos hzero, dif_neg (hne hzero)]
    refine .finite _ _ _ (by omega) ?_
    rw [hzero]
    decide
  · rw [if_neg hzero]
    refine .finite _ _ _ ?_ ?_
    · rw [toNat_one_append]
      omega
    · show -149 ≤ (b.toNat : Int) - 150
      have hpos : b.toNat ≠ 0 := fun h0 => hzero (BitVec.eq_of_toNat_eq h0)
      omega

/-- Packing keeps a positive number positive. -/
theorem Positive.packed {f : UnpackedFloat} (h : Positive f) : Positive (unpacked (packed f)) := by
  have hinfinity : Positive (unpacked (Binary32.packed (.infinity .positive))) := .infinity
  cases h with
  | infinity => exact hinfinity
  | finite m e hm hbits he =>
    rw [unpacked_packed, UnpackedFloat.pack]
    simp only
    split
    · exact hinfinity
    · rename_i hsmall
      generalize hbiased : (e + Format.binary32.exponentBias + (23 : Nat)).toNat = biased at *
      have hbias : biased = (e + 150).toNat := by
        rw [← hbiased]
        show (e + 127 + 23).toNat = _
        omega
      have hlt : biased + 1 < 256 := Nat.not_le.mp hsmall
      have hbits8 : (BitVec.ofNat 8 biased).toNat = biased := by
        rw [BitVec.toNat_ofNat]
        exact Nat.mod_eq_of_lt (by omega)
      split
      · refine positive_unpack (fun hall => ?_) (fun hzero => ?_)
        · rw [hall] at hbits8
          have h255 : (-1#8 : BitVec 8).toNat = 255 := rfl
          omega
        · rw [hzero] at hbits8
          have h0 : (0#8 : BitVec 8).toNat = 0 := rfl
          omega
      · rename_i hlog
        refine positive_unpack (by decide) fun _ hzero => ?_
        -- Without its leading bit, the mantissa fits into its field.
        have hshort : m < binade := by
          by_contra hlong
          have hlog' : m.log2 = 23 := by
            rw [Nat.log2_eq_iff hm.ne']
            unfold binade at *
            omega
          exact hlog (congrArg (· + 1) hlog')
        have hfield := congrArg BitVec.toNat hzero
        rw [BitVec.toNat_ofNat] at hfield
        exact hm.ne' ((Nat.mod_eq_of_lt hshort).symm.trans hfield)

/-! ### Rounding -/

/-- What is shifted to its place keeps its leading bit. -/
theorem shiftToTarget_spec (hm : 0 < m) (he : -149 ≤ e) (accuracy : Accuracy) :
    0 < (shiftToTargetExponent Format.binary32 m e accuracy).1.mantissa ∧
      (shiftToTargetExponent Format.binary32 m e accuracy).1.mantissa < 2 * binade ∧
      -149 ≤ (shiftToTargetExponent Format.binary32 m e accuracy).2 := by
  unfold shiftToTargetExponent shiftToExponent
  simp only [mantissa_shiftRight, mantissa_ofMantissaAndAccuracy]
  have htarget : Format.binary32.targetExponent (Float.Model.totalExponent m e) =
      max (m.log2 + 1 + e - 24) (-149) := rfl
  have hshift : (max (m.log2 + 1 + e - 24) (-149) - e).toNat = m.log2 - 23 := by omega
  rw [htarget, hshift]
  obtain ⟨hlt, hlead⟩ := leadingBits m 23
  refine ⟨?_, hlt, by omega⟩
  rcases hlead with hzero | hle
  · rwa [hzero, Nat.pow_zero, Nat.div_one]
  · exact Nat.lt_of_lt_of_le (Nat.two_pow_pos 23) hle

theorem le_roundedMantissa (em : ExtendedMantissa) : em.mantissa ≤ em.roundedMantissa := by
  obtain ⟨m, round, sticky⟩ := em
  cases round <;> cases sticky
  · exact Nat.le_refl m
  · exact Nat.le_refl m
  · exact Nat.le_add_right m _
  · exact Nat.le_succ m

theorem positive_roundWithAccuracy (hm : 0 < m) (he : -149 ≤ e) (accuracy : Accuracy) :
    Positive (UnpackedFloat.roundWithAccuracy Format.binary32 .positive m e accuracy) := by
  obtain ⟨hpos, -, hexponent⟩ := shiftToTarget_spec hm he accuracy
  unfold UnpackedFloat.roundWithAccuracy
  generalize shiftToTargetExponent Format.binary32 m e accuracy = shifted at hpos hexponent
  obtain ⟨em, e'⟩ := shifted
  -- Rounding up can make one bit too many, so the mantissa is shifted once more.
  obtain ⟨hpos', hbits, hexponent'⟩ := shiftToTarget_spec
    (Nat.lt_of_lt_of_le hpos (le_roundedMantissa em)) hexponent .exact
  simp only
  split
  · rename_i hzero
    exact absurd hzero hpos'.ne'
  · exact .finite _ _ _ hbits hexponent'

theorem positive_normalize (hm : 0 < m) (he : -149 ≤ e) (zeroSign : Sign) :
    Positive (UnpackedFloat.normalize Format.binary32 m e zeroSign) := by
  have hgt : compare (m : Int) 0 = .gt := Int.compare_eq_gt.mpr (by omega)
  unfold UnpackedFloat.normalize
  rw [hgt]
  refine positive_roundWithAccuracy ?_ ?_ .exact
  · rw [Int.toNat_natCast, Nat.shiftLeft_eq]
    exact Nat.mul_pos hm (Nat.two_pow_pos _)
  · have htarget : -149 ≤ Format.binary32.targetExponent (Float.Model.totalExponent m e) :=
      le_max_right _ _
    rw [Int.toNat_natCast]
    omega

/-! ### Sums -/

theorem Positive.add {f g : UnpackedFloat} (hf : Positive f) (hg : Positive g) :
    Positive (UnpackedFloat.add Format.binary32 f g) := by
  cases hf with
  | infinity => cases hg <;> exact .infinity
  | finite m e hm hbits he =>
    cases hg with
    | infinity => exact .infinity
    | finite m' e' hm' hbits' he' =>
      refine positive_normalize (m := m <<< _ + m' <<< _) ?_ (le_min he he') .positive
      rw [Nat.shiftLeft_eq]
      exact Nat.add_pos_left (Nat.mul_pos hm (Nat.two_pow_pos _)) _

variable {v w : Float32}

theorem zero_le_of_isZero (h : IsZero v) : 0 ≤ v := by
  obtain ⟨s, hs⟩ := h
  rw [le_iff, unpacked_zero, hs]
  rfl

/-- Adding to a zero changes no positive number. -/
theorem add_eq_of_isZero (hv : IsZero v) (hw : 0 < w) : v + w = w := by
  obtain ⟨s, hs⟩ := hv
  have hadd : v + w =
      Binary32.packed (UnpackedFloat.add Format.binary32 (.zero s) (unpacked w)) := by
    rw [← hs]
    rfl
  have hpositive := positive_iff.mp hw
  rw [hadd]
  conv_rhs => rw [← packed_unpacked w]
  generalize unpacked w = f at hpositive
  cases hpositive <;> rfl

/-- Adding a zero changes no positive number. -/
theorem add_eq_of_isZero_right (hv : 0 < v) (hw : IsZero w) : v + w = v := by
  obtain ⟨s, hs⟩ := hw
  have hadd : v + w =
      Binary32.packed (UnpackedFloat.add Format.binary32 (unpacked v) (.zero s)) := by
    rw [← hs]
    rfl
  have hpositive := positive_iff.mp hv
  rw [hadd]
  conv_rhs => rw [← packed_unpacked v]
  generalize unpacked v = f at hpositive
  cases hpositive <;> rfl

theorem isZero_add (hv : IsZero v) (hw : IsZero w) : IsZero (v + w) := by
  obtain ⟨s, hs⟩ := hv
  obtain ⟨s', hs'⟩ := hw
  have hadd : v + w = Binary32.packed (UnpackedFloat.add Format.binary32 (.zero s) (.zero s')) := by
    rw [← hs, ← hs']
    rfl
  rw [hadd]
  cases s <;> cases s' <;> exact ⟨_, unpacked_packed_zero _⟩

/-- **A sum is positive if one of its parts is.** -/
theorem add_pos_iff (hv : 0 ≤ v) (hw : 0 ≤ w) : 0 < v + w ↔ 0 < v ∨ 0 < w := by
  by_cases hposw : 0 < w
  · refine iff_of_true ?_ (.inr hposw)
    by_cases hposv : 0 < v
    · exact positive_iff.mpr ((positive_iff.mp hposv).add (positive_iff.mp hposw)).packed
    · rwa [add_eq_of_isZero (isZero_of_le hv hposv) hposw]
  · rw [lt_add_of_isZero (isZero_of_le hw hposw), or_iff_left hposw]

theorem add_nonneg (hv : 0 ≤ v) (hw : 0 ≤ w) : 0 ≤ v + w := by
  by_cases hpos : 0 < v ∨ 0 < w
  · exact le_of_lt ((add_pos_iff hv hw).mpr hpos)
  · obtain ⟨hposv, hposw⟩ := not_or.mp hpos
    exact zero_le_of_isZero (isZero_add (isZero_of_le hv hposv) (isZero_of_le hw hposw))

end GrammarArt.Binary32
