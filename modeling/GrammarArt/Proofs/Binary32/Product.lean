import GrammarArt.Proofs.Binary32.Order

/-! # Products are rounded correctly

The product of two numbers that are not negative is the number nearest to the exact product of
their sizes (`magnitude_mul`).  The bits that have no place in a single are shifted out one by
one, and of those that are gone only two bits are kept, the last one and whether any other was
set; these two tell on which side of the midpoint the exact product lies
(`roundedMantissa_shiftRight`).

Nearest numbers keep the order of what they are nearest to (`nearest_mono`), and so does a
product (`mul_le_mul`).
-/
namespace GrammarArt.Binary32

open Float.Model (Format UnpackedFloat)
open Float.Model.UnpackedFloat

/-! ### Nearest numbers keep the order -/

theorem quotient_strictMono {den : Nat} (hden : 0 < den) : StrictMono (quotient · den) := by
  intro num num' h
  have hunits : (0 : ℚ) < unitsInOne := by
    rw [unitsInOne, Nat.pow_eq]
    positivity
  have hnum : (num : ℚ) < num' := by exact_mod_cast h
  show (num * unitsInOne / den : ℚ) < num' * unitsInOne / den
  gcongr

/-- **Nearest numbers keep the order.** -/
theorem nearest_mono {num num' den : Nat} (hden : 0 < den) (h : num ≤ num') :
    nearest num den ≤ nearest num' den := by
  rcases h.eq_or_lt with rfl | hlt
  · exact le_rfl
  obtain ⟨b, r, hr, hlow, -, hside⟩ := nearest_spec num hden
  obtain ⟨b', r', hr', -, hhigh', hside'⟩ := nearest_spec num' hden
  have hquotient : quotient num den < quotient num' den := quotient_strictMono hden hlt
  rw [hr, hr']
  refine min_le_min_left _ ?_
  rcases Nat.lt_trichotomy b b' with hbelow | rfl | habove
  · omega
  · -- The midpoint above is not between the two sizes.
    rcases hside with ⟨hdown, -⟩ | ⟨hup, hmidpoint⟩
    · omega
    · rcases hside' with ⟨-, hmidpoint'⟩ | ⟨hup', -⟩
      · linarith
      · omega
  · -- A size below that of the next magnitude cannot be the larger one.
    have hunits : (units (b' + 1) : ℚ) ≤ units b := by
      exact_mod_cast units_strictMono.monotone habove
    linarith

/-! ### What is shifted out -/

/-- A mantissa without its last `j` bits, and what is remembered of these: whether they are worth
half a unit of the last place kept or more, and whether neither nothing nor exactly a half. -/
theorem shiftRight_exact (m j : Nat) :
    ExtendedMantissa.ofMantissaAndAccuracy m .exact >>> j =
      ⟨m / 2 ^ j, decide (2 ^ j ≤ 2 * (m % 2 ^ j)),
        decide (2 * (m % 2 ^ j) ≠ 0 ∧ 2 * (m % 2 ^ j) ≠ 2 ^ j)⟩ := by
  show Nat.repeat ExtendedMantissa.shiftRightOne j _ = _
  induction j with
  | zero =>
    rw [Nat.pow_zero, Nat.div_one, Nat.mod_one]
    rfl
  | succ j ih =>
    rw [Nat.repeat, ih, ExtendedMantissa.shiftRightOne, Nat.div_div_eq_div_mul, Nat.pow_succ]
    have hlast : m % (2 ^ j * 2) = m % 2 ^ j + 2 ^ j * (m / 2 ^ j % 2) := Nat.mod_mul
    have hlt : m % 2 ^ j < 2 ^ j := Nat.mod_lt _ (Nat.two_pow_pos j)
    rw [hlast]
    generalize m % 2 ^ j = dropped at hlt
    generalize 2 ^ j = place at hlt ⊢
    have hround : (m / place % 2 != 0) =
        decide (place * 2 ≤ 2 * (dropped + place * (m / place % 2))) := by
      rw [Bool.eq_iff_iff, bne_iff_ne, decide_eq_true_eq]
      rcases Nat.mod_two_eq_zero_or_one (m / place) with hbit | hbit
      · rw [hbit]
        omega
      · rw [hbit]
        omega
    have hsticky : (decide (place ≤ 2 * dropped) ||
        decide (2 * dropped ≠ 0 ∧ 2 * dropped ≠ place)) =
          decide (2 * (dropped + place * (m / place % 2)) ≠ 0 ∧
            2 * (dropped + place * (m / place % 2)) ≠ place * 2) := by
      rw [← Bool.decide_or, decide_eq_decide]
      rcases Nat.mod_two_eq_zero_or_one (m / place) with hbit | hbit
      · rw [hbit]
        omega
      · rw [hbit]
        omega
    rw [hround, hsticky]

/-- **The two bits that are remembered tell how to round.** -/
theorem roundedMantissa_shiftRight (m j : Nat) :
    (ExtendedMantissa.ofMantissaAndAccuracy m .exact >>> j).roundedMantissa =
      roundedPart m 1 j := by
  have hdropped : m - m / 2 ^ j * 2 ^ j = m % 2 ^ j := by
    have hdiv := Nat.div_add_mod' m (2 ^ j)
    omega
  rw [shiftRight_exact, roundedPart]
  simp only [Nat.div_one, Nat.mul_one, hdropped]
  generalize m % 2 ^ j = dropped
  generalize 2 ^ j = place
  rcases Nat.lt_trichotomy (2 * dropped) place with hlt | heq | hgt
  · have hround : ¬ (place < 2 * dropped ∨ place = 2 * dropped ∧ m / place % 2 = 1) := by omega
    rw [if_neg hround, decide_eq_false (by omega)]
    by_cases hnone : dropped = 0
    · rw [decide_eq_false (by omega)]
      rfl
    · rw [decide_eq_true (by omega)]
      rfl
  · rw [decide_eq_true (by omega), decide_eq_false (by omega)]
    show m / place + m / place % 2 = _
    split
    · omega
    · omega
  · rw [if_pos (.inl hgt), decide_eq_true (by omega), decide_eq_true (by omega)]
    rfl

/-- A factor common to the number and to the place changes nothing. -/
theorem roundedPart_mul {c : Nat} (hc : 0 < c) (m : Nat) {den s j : Nat}
    (h : 2 ^ s * den = 2 ^ j * c) : roundedPart (m * c) den s = roundedPart m 1 j := by
  have hkept : m * c / den / 2 ^ s = m / 2 ^ j := by
    rw [Nat.div_div_eq_div_mul, Nat.mul_comm den, h, Nat.mul_div_mul_right _ _ hc]
  have hdropped : m * c - m / 2 ^ j * (2 ^ j * c) = (m - m / 2 ^ j * 2 ^ j) * c := by
    rw [← Nat.mul_assoc, Nat.sub_mul]
  unfold roundedPart
  simp only [hkept, h, hdropped, Nat.div_one, Nat.mul_one, ← Nat.mul_assoc 2]
  have hmore : 2 ^ j * c < 2 * (m - m / 2 ^ j * 2 ^ j) * c ↔ 2 ^ j < 2 * (m - m / 2 ^ j * 2 ^ j) :=
    Nat.mul_lt_mul_right hc
  have hhalf : 2 ^ j * c = 2 * (m - m / 2 ^ j * 2 ^ j) * c ↔ 2 ^ j = 2 * (m - m / 2 ^ j * 2 ^ j) :=
    Nat.mul_left_inj hc.ne'
  simp only [hmore, hhalf]

/-! ### Packing -/

theorem toNat_packComponents (s : Sign) (e : BitVec 8) (m : BitVec 23) :
    (packComponents Format.binary32 s e m).toNat =
      s.toBitVec.toNat * signBit + e.toNat * binade + m.toNat := by
  have he := e.isLt
  have hm := m.isLt
  rw [packComponents, BitVec.toNat_append, BitVec.toNat_append,
    ← Nat.shiftLeft_add_eq_or_of_lt he, ← Nat.shiftLeft_add_eq_or_of_lt hm,
    Nat.shiftLeft_eq, Nat.shiftLeft_eq, signBit, binade]
  omega

theorem toNat_ofMagnitude_infinityBits :
    (ofMagnitude false infinityBits).toBits.toNat = infinityBits := by decide

/-- The number of a magnitude, up to that of infinity. -/
theorem packed_eq_ofMagnitude {f : UnpackedFloat} {b : Nat} (hb : b ≤ infinityBits)
    (h : (UnpackedFloat.pack Format.binary32 f).toNat = b) : packed f = ofMagnitude false b := by
  have hbits : (ofMagnitude false b).toBits.toNat = b := by
    rcases hb.eq_or_lt with rfl | hlt
    · exact toNat_ofMagnitude_infinityBits
    · exact toNat_ofMagnitude false hlt
  exact toBits_inj (UInt32.toNat_inj.mp (h.trans hbits.symm))

/-- **A number that has its place is packed to the magnitude of its mantissa and its exponent**, and
to infinity if it is too large. -/
theorem packed_finite {m s : Nat} (hm : 0 < m) (hbits : m < 2 * binade)
    (hlead : s = 0 ∨ binade ≤ m) :
    packed (.finite .positive m ((s : Int) - 149) hm) =
      ofMagnitude false (min infinityBits (m + s * binade)) := by
  refine packed_eq_ofMagnitude (min_le_left _ _) ?_
  have hbiased : ((s : Int) - 149 + Format.binary32.exponentBias + (23 : Nat)).toNat = s + 1 := by
    show ((s : Int) - 149 + 127 + 23).toNat = s + 1
    omega
  rw [UnpackedFloat.pack]
  simp only [hbiased]
  by_cases hlarge : 2 ^ 8 ≤ s + 1 + 1
  · rw [if_pos hlarge, packedInfinity, toNat_packComponents]
    show 0 * signBit + 255 * binade + 0 = _
    unfold infinityBits binade at *
    omega
  · rw [if_neg hlarge]
    by_cases hlog : m.log2 + 1 = Format.binary32.mantissaBits
    · have hfull : m.log2 + 1 = 24 := hlog
      have hle := Nat.log2_self_le hm.ne'
      rw [Nat.succ.inj hfull] at hle
      rw [if_pos hlog, toNat_packComponents, BitVec.toNat_ofNat, BitVec.toNat_ofNat]
      show 0 * signBit + (s + 1) % 256 * binade + m % 8388608 = _
      unfold infinityBits binade at *
      omega
    · have hshort : m < binade := by
        by_contra hlong
        refine hlog (congrArg (· + 1) ((Nat.log2_eq_iff hm.ne').mpr ?_))
        unfold binade at *
        omega
      rw [if_neg hlog, toNat_packComponents, BitVec.toNat_ofNat]
      show 0 * signBit + 0 * binade + m % 8388608 = _
      unfold infinityBits binade at *
      omega

/-! ### Rounding -/

/-- The exponent of a quotient is the one that leaves it 24 bits, if it has as many. -/
theorem log2_sub_eq {n s : Nat} (hbits : n / 2 ^ s < 2 * binade)
    (hlead : s = 0 ∨ binade ≤ n / 2 ^ s) : n.log2 - 23 = s := by
  have hlt : n < 2 ^ (s + 24) := by
    rw [Nat.pow_add, Nat.mul_comm]
    exact (Nat.div_lt_iff_lt_mul (Nat.two_pow_pos s)).mp hbits
  rcases hlead with rfl | hlead
  · have hlog : n = 0 ∨ n.log2 < 24 := by
      rcases Nat.eq_zero_or_pos n with hzero | hpos
      · exact .inl hzero
      · exact .inr ((Nat.log2_lt hpos.ne').mpr hlt)
    rcases hlog with rfl | hlog
    · rfl
    · omega
  · have hle : 2 ^ (s + 23) ≤ n := by
      rw [Nat.pow_add, Nat.mul_comm]
      exact (Nat.le_div_iff_mul_le (Nat.two_pow_pos s)).mp hlead
    have hpos : 0 < n := Nat.lt_of_lt_of_le (Nat.two_pow_pos _) hle
    have hlog : n.log2 = s + 23 := (Nat.log2_eq_iff hpos.ne').mpr ⟨hle, hlt⟩
    omega

theorem shiftToTarget_exact {m : Nat} {e : Int} (j : Nat)
    (h : max (m.log2 + 1 + e - 24) (-149) = e + j) :
    shiftToTargetExponent Format.binary32 m e .exact =
      (ExtendedMantissa.ofMantissaAndAccuracy m .exact >>> j, e + j) := by
  have htarget : Format.binary32.targetExponent (Float.Model.totalExponent m e) = e + j := h
  have hshift : (e + j - e).toNat = j := by omega
  rw [shiftToTargetExponent, htarget, shiftToExponent]
  simp only [hshift]

/-- A number whose mantissa was rounded.  It has its place, but for the least power of two with one
bit too many, which has its place with one bit less. -/
theorem packed_rounded {r s : Nat} (hbits : r ≤ 2 * binade) (hlead : s = 0 ∨ binade ≤ r)
    {em : ExtendedMantissa} {e : Int}
    (h : shiftToTargetExponent Format.binary32 r ((s : Int) - 149) .exact = (em, e)) :
    packed (if hm : em.mantissa = 0 then .zero .positive
      else .finite .positive em.mantissa e (Nat.pos_of_ne_zero hm)) =
        ofMagnitude false (min infinityBits (r + s * binade)) := by
  rcases hbits.eq_or_lt with rfl | hlt
  · have hlog : (2 * binade).log2 = 24 := by decide
    rw [shiftToTarget_exact 1 (by rw [hlog]; omega)] at h
    obtain ⟨rfl, rfl⟩ := Prod.mk.inj h
    have hmantissa : (ExtendedMantissa.ofMantissaAndAccuracy (2 * binade) .exact >>> 1).mantissa =
        binade := rfl
    have hexponent : (s : Int) - 149 + (1 : Nat) = ((s + 1 : Nat) : Int) - 149 := by omega
    have hsum : binade + (s + 1) * binade = 2 * binade + s * binade := by ring
    simp only [hmantissa, hexponent]
    rw [dif_neg (by decide), packed_finite _ (by decide) (.inr le_rfl), hsum]
  · have hlog : s = 0 ∧ r.log2 ≤ 23 ∨ r.log2 = 23 := by
      by_cases hfull : binade ≤ r
      · have hne : r ≠ 0 := by
          unfold binade at hfull
          omega
        exact .inr ((Nat.log2_eq_iff hne).mpr ⟨hfull, hlt⟩)
      · refine .inl ⟨hlead.resolve_right hfull, ?_⟩
        rcases Nat.eq_zero_or_pos r with rfl | hpos
        · decide
        · exact Nat.le_of_lt_succ ((Nat.log2_lt hpos.ne').mpr hlt)
    rw [shiftToTarget_exact 0 (by omega)] at h
    obtain ⟨rfl, rfl⟩ := Prod.mk.inj h
    have hmantissa : (ExtendedMantissa.ofMantissaAndAccuracy r .exact >>> 0).mantissa = r := by
      rw [mantissa_shiftRight, mantissa_ofMantissaAndAccuracy, Nat.pow_zero, Nat.div_one]
    have hexponent : (s : Int) - 149 + (0 : Nat) = (s : Int) - 149 := by omega
    simp only [hmantissa, hexponent]
    by_cases hzero : r = 0
    · have hs : s = 0 := by
        unfold binade at hlead
        omega
      rw [dif_pos hzero, hzero, hs]
      rfl
    · rw [dif_neg hzero, packed_finite _ hlt hlead]

/-- The bits that are kept of a mantissa: all but `j`, so many that 24 bits are left, or that the
exponent is the least one. -/
theorem keptBits {m s j : Nat} (hm : 0 < m) (hj : m.log2 - 23 ≤ j)
    (hs : s = 0 ∨ 23 ≤ m.log2 ∧ j = m.log2 - 23) :
    m / 2 ^ j < 2 * binade ∧ (s = 0 ∨ binade ≤ m / 2 ^ j) := by
  obtain ⟨hlt, hlead⟩ := leadingBits m 23
  have hle : m / 2 ^ j ≤ m / 2 ^ (m.log2 - 23) :=
    Nat.div_le_div_left (Nat.pow_le_pow_right Nat.two_pos hj) (Nat.two_pow_pos _)
  refine ⟨Nat.lt_of_le_of_lt hle hlt, hs.imp_right ?_⟩
  rintro ⟨hlog, rfl⟩
  rcases hlead with hnone | hfull
  · rw [hnone, Nat.pow_zero, Nat.div_one]
    exact (Nat.le_log2 hm.ne').mp hlog
  · exact hfull

/-- **Rounding is to the nearest number.**  The mantissa has all bits that a single has room for, or
the exponent is not above the least one. -/
theorem packed_roundWithAccuracy {m k : Nat} (hm : 0 < m) (hk : k ≤ 149 ∨ binade ≤ m) :
    packed (UnpackedFloat.roundWithAccuracy Format.binary32 .positive m ((k : Int) - 298) .exact) =
      ofMagnitude false (nearest (m * 2 ^ k) (unitsInOne * unitsInOne)) := by
  have hlog : k ≤ 149 ∨ 23 ≤ m.log2 :=
    hk.imp_right fun hfull => (Nat.le_log2 hm.ne').mpr hfull
  -- All but `j` bits of the mantissa are kept, which leaves the exponent `s`.
  obtain ⟨s, hs⟩ : ∃ s, s = m.log2 + k - 172 := ⟨_, rfl⟩
  obtain ⟨j, hj⟩ : ∃ j, j + k = s + 149 := ⟨s + 149 - k, by omega⟩
  have hshift := shiftToTarget_exact (m := m) (e := (k : Int) - 298) j (by omega)
  have hexponent : (k : Int) - 298 + j = (s : Int) - 149 := by omega
  obtain ⟨hbits, hlead⟩ := keptBits (s := s) (j := j) hm (by omega) (by omega)
  -- In units, the place of the last bit that is kept is the same.
  have hplace : 2 ^ s * (unitsInOne * unitsInOne) = 2 ^ j * (2 ^ k * unitsInOne) := by
    have hsum : 2 ^ s * unitsInOne = 2 ^ j * 2 ^ k := by
      rw [← Nat.pow_add, hj, Nat.pow_add]
      rfl
    rw [← Nat.mul_assoc, hsum, Nat.mul_assoc]
  have hpos : 0 < 2 ^ k * unitsInOne := Nat.mul_pos (Nat.two_pow_pos k) (Nat.two_pow_pos 149)
  have hquotient : m * 2 ^ k * unitsInOne / (unitsInOne * unitsInOne) / 2 ^ s = m / 2 ^ j := by
    rw [Nat.div_div_eq_div_mul, Nat.mul_comm _ (2 ^ s), hplace, Nat.mul_assoc m,
      Nat.mul_div_mul_right _ _ hpos]
  have hnearest : nearest (m * 2 ^ k) (unitsInOne * unitsInOne) =
      min infinityBits (roundedPart m 1 j + s * binade) := by
    have hstep : (m * 2 ^ k * unitsInOne / (unitsInOne * unitsInOne)).log2 - 23 = s :=
      log2_sub_eq (hquotient ▸ hbits) (hquotient ▸ hlead)
    rw [← roundedPart_mul hpos m hplace, ← Nat.mul_assoc m, ← hstep]
    rfl
  obtain ⟨kept, hkept, -, -, hrounded⟩ := roundedPart_spec m Nat.one_pos j
  rw [Nat.div_one] at hkept
  rw [hnearest, UnpackedFloat.roundWithAccuracy, hshift]
  simp only [roundedMantissa_shiftRight, hexponent]
  refine packed_rounded ?_ ?_ rfl
  · omega
  · omega

/-! ### Products -/

variable {u u' v : Float32}

theorem magnitude_packed_zero (s : Sign) : magnitude (packed (.zero s)) = 0 := by
  cases s with
  | positive => rfl
  | negative => rfl

/-- The product of the sizes of two numbers, rounded. -/
def roundedProduct (b c : Nat) : Nat := nearest (units b * units c) (unitsInOne * unitsInOne)

theorem roundedProduct_zero {b c : Nat} (h : b = 0 ∨ c = 0) : roundedProduct b c = 0 := by
  have hunits : units b * units c = 0 := by
    rcases h with rfl | rfl
    · exact Nat.zero_mul _
    · exact Nat.mul_zero _
  rw [roundedProduct, hunits]
  decide

theorem roundedProduct_mono {b b' : Nat} (h : b ≤ b') (c : Nat) :
    roundedProduct b c ≤ roundedProduct b' c :=
  nearest_mono (Nat.mul_pos (Nat.two_pow_pos 149) (Nat.two_pow_pos 149))
    (Nat.mul_le_mul_right _ (units_strictMono.monotone h))

theorem binade_le_kept {b : Nat} (h : 0 < shift b) : binade ≤ kept b := by
  unfold kept shift binade at *
  omega

theorem packed_mul_finite {b c : Nat} (hb : 0 < kept b) (hc : 0 < kept c) :
    packed (UnpackedFloat.mul Format.binary32
      (.finite .positive (kept b) ((shift b : Int) - 149) hb)
      (.finite .positive (kept c) ((shift c : Int) - 149) hc)) =
        ofMagnitude false (roundedProduct b c) := by
  have hexponent : (shift b : Int) - 149 + ((shift c : Int) - 149) =
      ((shift b + shift c : Nat) : Int) - 298 := by omega
  -- Only a mantissa with all its bits has an exponent above the least one.
  have hfull : shift b + shift c ≤ 149 ∨ binade ≤ kept b * kept c := by
    by_cases hleast : shift b = 0 ∧ shift c = 0
    · exact .inl (by omega)
    · right
      by_cases hb0 : shift b = 0
      · have hlead := binade_le_kept (b := c) (by omega)
        exact hlead.trans (Nat.le_mul_of_pos_left _ hb)
      · have hlead := binade_le_kept (b := b) (by omega)
        exact hlead.trans (Nat.le_mul_of_pos_right _ hc)
  have hunits : units b * units c = kept b * kept c * 2 ^ (shift b + shift c) := by
    rw [units_eq_kept, units_eq_kept, Nat.pow_add]
    ring
  rw [roundedProduct, hunits, ← packed_roundWithAccuracy (Nat.mul_pos hb hc) hfull, ← hexponent]
  rfl

/-- **A product is rounded correctly**: it is the number nearest to the product of the sizes. -/
theorem mul_spec (hu : 0 ≤ u) (hu' : u.isFinite = true) (hv : 0 ≤ v) (hv' : v.isFinite = true) :
    0 ≤ u * v ∧ magnitude (u * v) = roundedProduct (magnitude u) (magnitude v) := by
  have hmul : u * v = packed (UnpackedFloat.mul Format.binary32 (unpacked u) (unpacked v)) := rfl
  have hnone (h : magnitude u = 0 ∨ magnitude v = 0) {s : Sign} (hzero : u * v = packed (.zero s)) :
      0 ≤ u * v ∧ magnitude (u * v) = roundedProduct (magnitude u) (magnitude v) := by
    rw [hzero, magnitude_packed_zero, roundedProduct_zero h]
    exact ⟨zero_le_of_isZero ⟨s, unpacked_packed_zero s⟩, rfl⟩
  have hltu := magnitude_lt hu'
  have hltv := magnitude_lt hv'
  rcases unpacked_cases hu with
    ⟨hzero, s, hu⟩ | ⟨-, -, m, e, hm, hu, rfl, rfl⟩ | ⟨hinfinity, -⟩
  · rcases unpacked_cases hv with
      ⟨-, s', hv⟩ | ⟨-, -, m', e', hm', hv, -, -⟩ | ⟨hinfinity, -⟩
    · rw [hu, hv] at hmul
      exact hnone (.inl hzero) hmul
    · rw [hu, hv] at hmul
      exact hnone (.inl hzero) hmul
    · omega
  · rcases unpacked_cases hv with
      ⟨hzero, s', hv⟩ | ⟨-, -, m', e', hm', hv, rfl, rfl⟩ | ⟨hinfinity, -⟩
    · rw [hu, hv] at hmul
      exact hnone (.inr hzero) hmul
    · rw [hu, hv, packed_mul_finite] at hmul
      rw [hmul]
      exact ofMagnitude_spec (min_le_left _ _)
    · omega
  · omega

/-- **A greater factor makes no smaller product.** -/
theorem mul_le_mul (hu : 0 ≤ u) (hu' : 0 ≤ u') (h : u ≤ u') (hfinite : u'.isFinite = true)
    (hv : 0 ≤ v) (hv' : v.isFinite = true) :
    0 ≤ u * v ∧ 0 ≤ u' * v ∧ u * v ≤ u' * v := by
  have hle := (le_iff_magnitude hu hu').mp h
  have hfinite' : u.isFinite = true := by
    rw [isFinite_eq, decide_eq_true_eq]
    exact hle.trans_lt (magnitude_lt hfinite)
  obtain ⟨hpos, hmagnitude⟩ := mul_spec hu hfinite' hv hv'
  obtain ⟨hpos', hmagnitude'⟩ := mul_spec hu' hfinite hv hv'
  refine ⟨hpos, hpos', (le_iff_magnitude hpos hpos').mpr ?_⟩
  rw [hmagnitude, hmagnitude']
  exact roundedProduct_mono hle _

end GrammarArt.Binary32
