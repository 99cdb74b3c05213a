import GrammarArt.Proofs.Refinement.Account
import Mathlib.Data.Nat.Log

/-! # The schedule of a rendering

The number of steps is the logarithm of the short side, rounded up, and at least one
(`stepCount_eq_max_clog`).  In words of 32 bits it is found by counting leading zeros
(`toNat_stepCountWord`).

From step to step the distance of the pixels is halved, so a step takes all pixels of the one
before (`samples_subset`).  The first distance is the greatest power of two below the short side,
which leaves two pixels of it (`min_ceilDiv_first`), and the last distance is one, so all pixels
are taken (`samples_one`).
-/
namespace GrammarArt

namespace Refinement

variable {width height : Nat}

/-! ### The number of steps -/

theorem stepCount_eq_max_clog (width height : Nat) :
    stepCount width height = max 1 (Nat.clog 2 (min width height)) := by
  unfold stepCount
  simp only
  split
  · rename_i hside
    rw [Nat.clog_of_right_le_one hside]
  · rename_i hside
    have hpos : min width height - 1 ≠ 0 := by omega
    have hle : 2 ^ (min width height - 1).log2 ≤ min width height - 1 := Nat.log2_self_le hpos
    have hlt : min width height - 1 < 2 ^ ((min width height - 1).log2 + 1) := Nat.lt_log2_self
    congr 1
    refine le_antisymm ?_ ?_
    · rw [Nat.succ_le_iff, Nat.lt_clog_iff_pow_lt (by decide)]
      omega
    · rw [Nat.clog_le_iff_le_pow (by decide)]
      omega

theorem stepCount_pos (width height : Nat) : 0 < stepCount width height := Nat.le_max_left 1 _

theorem min_le_two_pow_stepCount (width height : Nat) :
    min width height ≤ 2 ^ stepCount width height := by
  rw [stepCount_eq_max_clog]
  exact (Nat.le_pow_clog (by decide) _).trans (Nat.pow_le_pow_right (by decide) (le_max_right _ _))

/-- No fewer steps would do. -/
theorem two_pow_lt_min (h : 2 ≤ min width height) :
    2 ^ (stepCount width height - 1) < min width height := by
  have hpos : 1 ≤ Nat.clog 2 (min width height) := Nat.clog_pos (by decide) h
  rw [stepCount_eq_max_clog, max_eq_right hpos]
  exact Nat.pow_pred_clog_lt_self (by decide) h

/-- For sizes of 32 bits, no distance has more than 32. -/
theorem stepCount_le_of_lt (h : min width height < 2 ^ 32) : stepCount width height ≤ 32 := by
  rw [stepCount_eq_max_clog]
  exact max_le (by decide) ((Nat.clog_le_iff_le_pow (by decide)).mpr h.le)

/-! ### The number of steps in words -/

/-- The number of zero bits above the highest bit that is set. -/
def leadingZeros (x : UInt32) : UInt32 := ⟨x.toBitVec.clz⟩

/-- The number of steps, computed in words of 32 bits. -/
def stepCountWord (width height : UInt32) : UInt32 :=
  let side := min width height
  max (if side ≤ 1 then 0 else 32 - leadingZeros (side - 1)) 1

theorem toNat_min (a b : UInt32) : (min a b).toNat = min a.toNat b.toNat := by
  show (if a ≤ b then a else b).toNat = min a.toNat b.toNat
  split
  · rename_i h
    exact (min_eq_left (UInt32.le_iff_toNat_le.mp h)).symm
  · rename_i h
    exact (min_eq_right (Nat.le_of_not_le fun hle => h (UInt32.le_iff_toNat_le.mpr hle))).symm

theorem toNat_max (a b : UInt32) : (max a b).toNat = max a.toNat b.toNat := by
  show (if a ≤ b then b else a).toNat = max a.toNat b.toNat
  split
  · rename_i h
    exact (max_eq_right (UInt32.le_iff_toNat_le.mp h)).symm
  · rename_i h
    exact (max_eq_left (Nat.le_of_not_le fun hle => h (UInt32.le_iff_toNat_le.mpr hle))).symm

/-- The leading zeros of a number tell its logarithm. -/
theorem toNat_sub_leadingZeros {x : UInt32} (hx : x ≠ 0) :
    (32 - leadingZeros x).toNat = x.toNat.log2 + 1 := by
  have hbits : x.toBitVec ≠ 0#32 := fun h => hx (UInt32.toBitVec_inj.mp h)
  have hzeros : (leadingZeros x).toNat < 32 := BitVec.clz_lt_iff_ne_zero.mpr hbits
  have hlow : 2 ^ (32 - 1 - (leadingZeros x).toNat) ≤ x.toNat :=
    BitVec.two_pow_sub_clz_le_toNat_of_ne_zero (by decide) hbits
  have hhigh : x.toNat < 2 ^ (32 - (leadingZeros x).toNat) := BitVec.toNat_lt_two_pow_sub_clz
  have hle : leadingZeros x ≤ 32 := UInt32.le_iff_toNat_le.mpr hzeros.le
  have hsub : (32 - leadingZeros x).toNat = 32 - (leadingZeros x).toNat :=
    UInt32.toNat_sub_of_le 32 _ hle
  have hlog : x.toNat.log2 = 32 - 1 - (leadingZeros x).toNat := by
    rw [Nat.log2_eq_iff (fun h => hx (UInt32.toNat_inj.mp h))]
    refine ⟨hlow, ?_⟩
    rwa [show 32 - 1 - (leadingZeros x).toNat + 1 = 32 - (leadingZeros x).toNat by omega]
  omega

/-- **Counting leading zeros gives the number of steps.** -/
theorem toNat_stepCountWord (width height : UInt32) :
    (stepCountWord width height).toNat = stepCount width.toNat height.toNat := by
  unfold stepCountWord stepCount
  simp only
  rw [toNat_max, ← toNat_min, max_comm]
  have hone : min width height ≤ 1 ↔ (min width height).toNat ≤ 1 := UInt32.le_iff_toNat_le
  by_cases hside : min width height ≤ 1
  · rw [if_pos hside, if_pos (hone.mp hside)]
    rfl
  · have htwo : 1 < (min width height).toNat := Nat.lt_of_not_le (hone.not.mp hside)
    have hsub : (min width height - 1).toNat = (min width height).toNat - 1 :=
      UInt32.toNat_sub_of_le _ _ (UInt32.le_iff_toNat_le.mpr htwo.le)
    have hne : min width height - 1 ≠ 0 := by
      intro h
      rw [h] at hsub
      exact absurd hsub.symm (Nat.sub_ne_zero_of_lt htwo)
    rw [if_neg hside, if_neg (hone.not.mp hside), toNat_sub_leadingZeros hne, hsub]
    rfl

/-! ### The pixels of a step -/

/-- A step takes a pixel for each pair of a column and a row of its image. -/
theorem mem_samples_iff {stride : Nat} {place : Nat × Nat} :
    place ∈ samples width height stride ↔
      ∃ i < width ⌈/⌉ stride, ∃ j < height ⌈/⌉ stride, place = (i * stride, j * stride) := by
  have hcount (n : Nat) : sampleCount n stride = n ⌈/⌉ stride := rfl
  simp only [samples, List.mem_map, Prod.exists, Frame.mem_places, hcount]
  constructor
  · rintro ⟨i, j, ⟨hi, hj⟩, rfl⟩
    exact ⟨i, hi, j, hj, rfl⟩
  · rintro ⟨i, hi, j, hj, rfl⟩
    exact ⟨i, j, ⟨hi, hj⟩, rfl⟩

theorem lt_of_mem_samples {stride : Nat} (hs : 0 < stride) :
    ∀ place ∈ samples width height stride, place.1 < width ∧ place.2 < height := by
  intro place h
  obtain ⟨i, hi, j, hj, rfl⟩ := mem_samples_iff.mp h
  exact ⟨mul_lt_of_lt_ceilDiv hs hi, mul_lt_of_lt_ceilDiv hs hj⟩

/-- **A step with half the distance takes all pixels of the one before.** -/
theorem samples_subset {stride finer : Nat} (hs : 0 < stride) (hdvd : finer ∣ stride) :
    samples width height stride ⊆ samples width height finer := by
  rintro ⟨col, row⟩ h
  obtain ⟨hcol, hrow, hdvdcol, hdvdrow⟩ := (mem_samples hs).mp h
  exact (mem_samples (Nat.pos_of_dvd_of_pos hdvd hs)).mpr
    ⟨hcol, hrow, hdvd.trans hdvdcol, hdvd.trans hdvdrow⟩

/-- With no distance, the pixels of a step are those of the frame. -/
theorem samples_one (width height : Nat) : samples width height 1 = Frame.places width height := by
  have hcount (n : Nat) : sampleCount n 1 = n := Frame.ceilDiv_one n
  simp [samples, hcount]

theorem nodup_places (width height : Nat) : (Frame.places width height).Nodup := by
  refine List.nodup_flatMap.mpr ⟨fun row _ => ?_, ?_⟩
  · exact List.nodup_range.map fun col col' h => congrArg Prod.fst h
  · refine List.nodup_range.imp fun {row row'} hne => ?_
    refine List.disjoint_left.mpr fun place hplace hplace' => hne ?_
    obtain ⟨col, -, rfl⟩ := List.mem_map.mp hplace
    obtain ⟨col', -, heq⟩ := List.mem_map.mp hplace'
    exact (congrArg Prod.snd heq).symm

/-- A step takes no pixel twice. -/
theorem nodup_samples {stride : Nat} (hs : 0 < stride) : (samples width height stride).Nodup := by
  refine (nodup_places _ _).map fun place place' h => ?_
  obtain ⟨hcol, hrow⟩ := Prod.mk.inj h
  exact Prod.ext (Nat.eq_of_mul_eq_mul_right hs hcol) (Nat.eq_of_mul_eq_mul_right hs hrow)

/-- **The last step takes every pixel once.** -/
theorem count_samples_one {col row : Nat} (hcol : col < width) (hrow : row < height) :
    (samples width height 1).count (col, row) = 1 := by
  rw [samples_one]
  exact List.count_eq_one_of_mem (nodup_places width height) (Frame.mem_places.mpr ⟨hcol, hrow⟩)

theorem min_ceilDiv {stride : Nat} (hs : 0 < stride) :
    min (width ⌈/⌉ stride) (height ⌈/⌉ stride) = min width height ⌈/⌉ stride :=
  ((gc_mul_ceilDiv hs).monotone_l.map_min).symm

/-- **The short side of the first image has two pixels**, unless the frame has only one. -/
theorem min_ceilDiv_first (h : 0 < min width height) :
    min (width ⌈/⌉ 2 ^ (stepCount width height - 1)) (height ⌈/⌉ 2 ^ (stepCount width height - 1)) =
      min 2 (min width height) := by
  have hstride : 0 < 2 ^ (stepCount width height - 1) := Nat.two_pow_pos _
  rw [min_ceilDiv hstride]
  rcases Nat.lt_or_ge (min width height) 2 with hlt | hle
  · have hside : min width height = 1 := by omega
    rw [hside, Nat.min_eq_right (by decide)]
    refine le_antisymm ((ceilDiv_le_iff_le_mul hstride).mpr (by omega)) ?_
    exact Nat.lt_of_not_le fun hzero =>
      absurd ((ceilDiv_le_iff_le_mul hstride).mp hzero) (by rw [Nat.mul_zero]; decide)
  · have hcover := min_le_two_pow_stepCount width height
    have hfewer := two_pow_lt_min hle
    have hpow : 2 ^ stepCount width height = 2 ^ (stepCount width height - 1) * 2 := by
      rw [← Nat.pow_succ, Nat.succ_eq_add_one, Nat.sub_add_cancel (stepCount_pos width height)]
    rw [min_eq_left hle]
    refine le_antisymm ((ceilDiv_le_iff_le_mul hstride).mpr (hpow ▸ hcover)) ?_
    exact Nat.lt_of_not_le fun hone =>
      absurd ((ceilDiv_le_iff_le_mul hstride).mp hone) (by omega)

end Refinement

end GrammarArt
