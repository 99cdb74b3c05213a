import GrammarArt.Proofs.Binary32.Arithmetic

/-! # Bounds of numbers

A sum or a product of finite numbers is finite unless it is too large.  To see that it is not
too large one need not know it to the last bit: a bound `2 ^ n` of the operands gives one of
the result, and rounding raises it by one power of two at most (`Below.mul`, `Below.add`).
Numbers that are bounded so are finite (`Below.isFinite`).
-/
namespace GrammarArt.Binary32

open Float.Model (Format UnpackedFloat)
open Float.Model.UnpackedFloat

/-- A mantissa and an exponent that stand for less than `2 ^ n`. -/
def MantissaBelow (n : Int) (m : Nat) (e : Int) : Prop := ∃ k : Nat, m < 2 ^ k ∧ k + e ≤ n

/-- The number is finite, and its magnitude is less than `2 ^ n`. -/
inductive BelowPow (n : Int) : UnpackedFloat → Prop where
  | zero (s : Sign) : BelowPow n (.zero s)
  | finite (s : Sign) (m : Nat) (e : Int) (hm : 0 < m) (h : MantissaBelow n m e) :
    BelowPow n (.finite s m e hm)

/-- The number is finite, and its magnitude is less than `2 ^ n`. -/
def Below (n : Int) (v : Float32) : Prop := BelowPow n (unpacked v)

variable {n n' : Int} {m m' : Nat} {e : Int}

/-! ### Mantissas -/

theorem MantissaBelow.mono (h : MantissaBelow n m e) (hn : n ≤ n') : MantissaBelow n' m e := by
  obtain ⟨k, hk, he⟩ := h
  exact ⟨k, hk, he.trans hn⟩

theorem MantissaBelow.of_le (h : MantissaBelow n m e) (hm : m' ≤ m) : MantissaBelow n m' e := by
  obtain ⟨k, hk, he⟩ := h
  exact ⟨k, Nat.lt_of_le_of_lt hm hk, he⟩

/-- What is rounded up stays below the next power of two. -/
theorem MantissaBelow.of_le_succ (h : MantissaBelow n m e) (hm : m' ≤ m + 1) :
    MantissaBelow (n + 1) m' e := by
  obtain ⟨k, hk, he⟩ := h
  refine ⟨k + 1, ?_, by omega⟩
  rw [Nat.pow_succ]
  omega

theorem MantissaBelow.shiftLeft (h : MantissaBelow n m e) (j : Nat) :
    MantissaBelow n (m <<< j) (e - j) := by
  obtain ⟨k, hk, he⟩ := h
  refine ⟨k + j, ?_, by omega⟩
  rw [Nat.shiftLeft_eq, Nat.pow_add]
  exact Nat.mul_lt_mul_of_pos_right hk (Nat.two_pow_pos j)

theorem MantissaBelow.div (h : MantissaBelow n m e) {j : Nat} (hne : m / 2 ^ j ≠ 0) :
    MantissaBelow n (m / 2 ^ j) (e + j) := by
  obtain ⟨k, hk, he⟩ := h
  have hjk : j ≤ k := by
    by_contra hlt
    have hpow : 2 ^ k ≤ 2 ^ j := Nat.pow_le_pow_right Nat.two_pos (by omega)
    exact hne (Nat.div_eq_of_lt (Nat.lt_of_lt_of_le hk hpow))
  refine ⟨k - j, ?_, by omega⟩
  rw [Nat.div_lt_iff_lt_mul (Nat.two_pow_pos j), ← Nat.pow_add, Nat.sub_add_cancel hjk]
  exact hk

theorem MantissaBelow.add (h : MantissaBelow n m e) (h' : MantissaBelow n m' e) :
    MantissaBelow (n + 1) (m + m') e := by
  obtain ⟨k, hk, he⟩ := h
  obtain ⟨k', hk', he'⟩ := h'
  have hle : 2 ^ k ≤ 2 ^ max k k' := Nat.pow_le_pow_right Nat.two_pos (Nat.le_max_left k k')
  have hle' : 2 ^ k' ≤ 2 ^ max k k' := Nat.pow_le_pow_right Nat.two_pos (Nat.le_max_right k k')
  refine ⟨max k k' + 1, ?_, by omega⟩
  rw [Nat.pow_succ]
  omega

theorem mantissa_shiftRight (em : ExtendedMantissa) (j : Nat) :
    (em >>> j).mantissa = em.mantissa / 2 ^ j := by
  show (Nat.repeat ExtendedMantissa.shiftRightOne j em).mantissa = _
  induction j with
  | zero => exact (Nat.div_one _).symm
  | succ j ih => rw [Nat.repeat, ExtendedMantissa.shiftRightOne, ih, Nat.div_div_eq_div_mul,
      Nat.pow_succ]

theorem mantissa_ofMantissaAndAccuracy (m : Nat) (accuracy : Accuracy) :
    (ExtendedMantissa.ofMantissaAndAccuracy m accuracy).mantissa = m := by
  cases accuracy with
  | exact => rfl
  | inexact o => cases o <;> rfl

theorem roundedMantissa_le (em : ExtendedMantissa) : em.roundedMantissa ≤ em.mantissa + 1 := by
  obtain ⟨m, round, sticky⟩ := em
  have hmod : m % 2 < 2 := Nat.mod_lt _ Nat.two_pos
  cases round <;> cases sticky
  · exact Nat.le_succ m
  · exact Nat.le_succ m
  · show m + m % 2 ≤ m + 1
    omega
  · exact Nat.le_refl _

/-! ### Rounding -/

theorem mantissa_shiftToTarget_le (m : Nat) (e : Int) (accuracy : Accuracy) :
    (shiftToTargetExponent Format.binary32 m e accuracy).1.mantissa ≤ m := by
  unfold shiftToTargetExponent shiftToExponent
  simp only [mantissa_shiftRight, mantissa_ofMantissaAndAccuracy]
  exact Nat.div_le_self _ _

/-- What is shifted to its place loses bits, but does not grow. -/
theorem MantissaBelow.shiftToTarget (h : MantissaBelow n m e) (hm : 0 < m) (hn : -149 ≤ n)
    (accuracy : Accuracy) :
    MantissaBelow n (shiftToTargetExponent Format.binary32 m e accuracy).1.mantissa
      (shiftToTargetExponent Format.binary32 m e accuracy).2 := by
  unfold shiftToTargetExponent shiftToExponent
  simp only [mantissa_shiftRight, mantissa_ofMantissaAndAccuracy]
  have htarget : Format.binary32.targetExponent (Float.Model.totalExponent m e) =
      max (m.log2 + 1 + e - 24) (-149) := rfl
  rw [htarget]
  generalize hj : (max (m.log2 + 1 + e - 24) (-149) - e).toNat = j
  by_cases hzero : m / 2 ^ j = 0
  · -- All bits are lost.  This happens at the least exponent only.
    have hlt : m < 2 ^ j := by
      rw [Nat.div_eq_zero_iff] at hzero
      exact hzero.resolve_left (Nat.two_pow_pos j).ne'
    have hlog : m.log2 < j := (Nat.log2_lt hm.ne').mpr hlt
    rw [hzero]
    exact ⟨0, Nat.one_pos, by omega⟩
  · exact h.div hzero

theorem BelowPow.roundWithAccuracy (h : MantissaBelow n m e) (hm : 0 < m) (hn : -149 ≤ n)
    (s : Sign) (accuracy : Accuracy) :
    BelowPow (n + 1) (UnpackedFloat.roundWithAccuracy Format.binary32 s m e accuracy) := by
  have hshifted := h.shiftToTarget hm hn accuracy
  unfold UnpackedFloat.roundWithAccuracy
  generalize shiftToTargetExponent Format.binary32 m e accuracy = shifted at hshifted
  obtain ⟨em, e'⟩ := shifted
  have hrounded := hshifted.of_le_succ (roundedMantissa_le em)
  simp only
  split
  · exact .zero s
  · rename_i hne
    have hpos : 0 < em.roundedMantissa :=
      Nat.lt_of_lt_of_le (Nat.pos_of_ne_zero hne) (mantissa_shiftToTarget_le _ _ _)
    exact .finite s _ _ _ (hrounded.shiftToTarget hpos (by omega) .exact)

theorem BelowPow.normalize {z : Int} (h : MantissaBelow n z.natAbs e) (hn : -149 ≤ n)
    (zeroSign : Sign) :
    BelowPow (n + 1) (UnpackedFloat.normalize Format.binary32 z e zeroSign) := by
  have hround (s : Sign) {m : Nat} (hm : 0 < m) (h : MantissaBelow n m e) :
      BelowPow (n + 1) (UnpackedFloat.round Format.binary32 s m e) :=
    BelowPow.roundWithAccuracy (h.shiftLeft _) (by
      rw [Nat.shiftLeft_eq]
      exact Nat.mul_pos hm (Nat.two_pow_pos _)) hn s .exact
  unfold UnpackedFloat.normalize
  split
  · rename_i hlt
    have hz : z < 0 := Int.compare_eq_lt.mp hlt
    have heq : (-z).toNat = z.natAbs := by omega
    rw [heq]
    exact hround _ (by omega) h
  · exact .zero _
  · rename_i hgt
    have hz : 0 < z := Int.compare_eq_gt.mp hgt
    have heq : z.toNat = z.natAbs := by omega
    rw [heq]
    exact hround _ (by omega) h

/-! ### Operations -/

theorem BelowPow.mono {f : UnpackedFloat} (h : BelowPow n f) (hn : n ≤ n') : BelowPow n' f := by
  cases h with
  | zero s => exact .zero s
  | finite s m e hm h => exact .finite s m e hm (h.mono hn)

theorem BelowPow.mul {f g : UnpackedFloat} (hf : BelowPow n f) (hg : BelowPow n' g)
    (hn : -149 ≤ n + n') : BelowPow (n + n' + 1) (UnpackedFloat.mul Format.binary32 f g) := by
  cases hf with
  | zero s =>
    cases hg with
    | zero s' => exact .zero _
    | finite s' m' e' hm' h' => exact .zero _
  | finite s m e hm h =>
    cases hg with
    | zero s' => exact .zero _
    | finite s' m' e' hm' h' =>
      obtain ⟨k, hk, he⟩ := h
      obtain ⟨k', hk', he'⟩ := h'
      refine BelowPow.roundWithAccuracy ⟨k + k', ?_, by omega⟩ (Nat.mul_pos hm hm') hn _ _
      rw [Nat.pow_add]
      exact Nat.mul_lt_mul'' hk hk'

theorem natAbs_apply_add_le (s s' : Sign) (m m' : Nat) :
    (s.apply m + s'.apply m').natAbs ≤ m + m' := by
  cases s <;> cases s' <;> simp only [Sign.apply] <;> omega

theorem BelowPow.add {f g : UnpackedFloat} (hf : BelowPow n f) (hg : BelowPow n g)
    (hn : -149 ≤ n) : BelowPow (n + 2) (UnpackedFloat.add Format.binary32 f g) := by
  cases hf with
  | zero s =>
    cases hg with
    | zero s' =>
      unfold UnpackedFloat.add
      simp only
      split
      · exact .zero _
      · exact .zero _
    | finite s' m' e' hm' h' => exact .finite _ _ _ _ (h'.mono (by omega))
  | finite s m e hm h =>
    cases hg with
    | zero s' => exact .finite _ _ _ _ (h.mono (by omega))
    | finite s' m' e' hm' h' =>
      have hleft := h.shiftLeft (e - min e e').toNat
      have hright := h'.shiftLeft (e' - min e e').toNat
      rw [show e - ((e - min e e').toNat : Int) = min e e' by omega] at hleft
      rw [show e' - ((e' - min e e').toNat : Int) = min e e' by omega] at hright
      have hsum := (hleft.add hright).of_le (natAbs_apply_add_le s s' _ _)
      exact (BelowPow.normalize hsum (by omega) .positive).mono (by omega)

theorem belowPow_unpack (s : Sign) {b : BitVec 8} {m : BitVec 23} (hb : b ≠ -1#8)
    (hn : -126 ≤ n) (h : b ≠ 0#8 → MantissaBelow n (binade + m.toNat) (b.toNat - 150)) :
    BelowPow n (UnpackedFloat.unpack Format.binary32 (packComponents Format.binary32 s b m)) := by
  rw [UnpackedFloat.unpack]
  simp only [unpackExponent_packComponents, unpackMantissa_packComponents]
  rw [if_neg hb]
  by_cases hzero : b = 0#8
  · rw [if_pos hzero]
    split
    · exact .zero _
    · refine .finite _ _ _ _ ⟨23, m.isLt, ?_⟩
      rw [hzero]
      exact hn
  · rw [if_neg hzero]
    refine .finite _ _ _ _ ?_
    rw [toNat_one_append]
    exact h hzero

/-- Packing keeps a bound, unless it is out of the range of exponents. -/
theorem BelowPow.packed {f : UnpackedFloat} (h : BelowPow n f) (hn : -126 ≤ n) (hn' : n ≤ 105) :
    BelowPow n (unpacked (packed f)) := by
  cases h with
  | zero s =>
    rw [unpacked_packed_zero]
    exact .zero s
  | finite s m e hm h =>
    have he : e ≤ 104 := by
      obtain ⟨k, hk, he⟩ := h
      have hpos : k ≠ 0 := by
        rintro rfl
        omega
      omega
    rw [unpacked_packed, UnpackedFloat.pack]
    simp only
    generalize hbiased : (e + Format.binary32.exponentBias + (23 : Nat)).toNat = biased
    have hbias : biased = (e + 150).toNat := by
      rw [← hbiased]
      show (e + 127 + 23).toNat = _
      omega
    rw [if_neg (by show ¬ 256 ≤ biased + 1; omega)]
    split
    · rename_i hlog
      have hbits : (BitVec.ofNat 8 biased).toNat = biased := by
        rw [BitVec.toNat_ofNat]
        exact Nat.mod_eq_of_lt (by omega)
      have hm24 : 2 ^ 23 ≤ m ∧ m < 2 ^ 24 := by
        have hlog' : m.log2 = 23 := Nat.succ.inj hlog
        rwa [Nat.log2_eq_iff hm.ne'] at hlog'
      refine belowPow_unpack s (fun hall => ?_) hn (fun hne => ?_)
      · rw [hall] at hbits
        have h255 : (-1#8 : BitVec 8).toNat = 255 := rfl
        omega
      · have hb : biased ≠ 0 := fun hzero => hne (by rw [hzero])
        have hmantissa : binade + (BitVec.ofNat 23 m).toNat = m := by
          rw [BitVec.toNat_ofNat, binade]
          omega
        rw [hbits, hmantissa, show (biased : Int) - 150 = e by omega]
        exact h
    · exact belowPow_unpack s (by decide) hn (fun hne => absurd rfl hne)

theorem Below.mono {v : Float32} (h : Below n v) (hn : n ≤ n') : Below n' v := BelowPow.mono h hn

theorem BelowPow.isFinite {f : UnpackedFloat} (h : BelowPow n f) : f.isFinite = true := by
  cases h with
  | zero _ | finite _ _ _ _ _ => rfl

theorem Below.isFinite {v : Float32} (h : Below n v) : v.isFinite = true := BelowPow.isFinite h

theorem Below.mul {v w : Float32} (hv : Below n v) (hw : Below n' w) (hn : -127 ≤ n + n')
    (hn' : n + n' ≤ 104) : Below (n + n' + 1) (v * w) :=
  (BelowPow.mul hv hw (by omega)).packed (by omega) (by omega)

theorem Below.add {v w : Float32} (hv : Below n v) (hw : Below n w) (hn : -126 ≤ n)
    (hn' : n ≤ 103) : Below (n + 2) (v + w) :=
  (BelowPow.add hv hw (by omega)).packed (by omega) (by omega)

end GrammarArt.Binary32
