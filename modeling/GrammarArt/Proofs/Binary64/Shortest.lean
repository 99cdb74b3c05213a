import GrammarArt.Proofs.Binary32.Approximation
import GrammarArt.Proofs.Binary64.Accuracy

/-! # The fewest digits, by way of double precision

The decimal with the fewest digits that is read as a magnitude is still read as it when it is made
a double before it is made a single (`magnitude?_shortest`).  The double is off by a small part of
the decimal.  Where the decimal is far from the midpoints next to the magnitude, the double stays
between them (`midpoint_lt_of_far`, `lt_midpoint_of_far`).  Where it is a midpoint, it has 25 bits
as a binary number and so few digits that its power of ten is exact (`abs_exponent_le`), and no
error is made at all.

The midpoints that some decimal is close to without being one are left out here.
-/
namespace GrammarArt.Binary64

open Binary32

variable {b n : Nat} {e : Int} {q : Quotient}

/-! ### Exact midpoints -/

theorem five_pow_dvd {n p m i j : Nat} (h : n * 10 ^ m * 2 ^ i = p * 2 ^ j) : 5 ^ m ∣ p := by
  have hdvd : 5 ^ m ∣ p * 2 ^ j := by
    rw [← h, show 10 = 5 * 2 from rfl, Nat.mul_pow]
    exact ⟨n * 2 ^ m * 2 ^ i, by ring⟩
  exact (Nat.Coprime.pow m j (by decide)).dvd_of_dvd_mul_right hdvd

theorem le_of_five_pow_dvd {m p : Nat} (hpos : 0 < p) (hp : p < 2 ^ 53) (h : 5 ^ m ∣ p) :
    m ≤ 22 := by
  by_contra hm
  have hle : 5 ^ 23 ≤ 5 ^ m := Nat.pow_le_pow_right (by decide) (by omega)
  have hless := (hle.trans (Nat.le_of_dvd hpos h)).trans_lt hp
  exact absurd hless (by decide)

/-- A decimal of 53 bits that has 53 bits as a binary number, too, has an exact power of ten. -/
theorem abs_exponent_le {p : Nat} {i : Int} (hn : 0 < n) (hn' : n < 2 ^ 53) (hp : 0 < p)
    (hp' : p < 2 ^ 53) (h : (n * 10 ^ e : ℚ) = p * 2 ^ i) : |e| ≤ 22 := by
  have hbinary : (2 : ℚ) ^ i * 2 ^ (-i).toNat = 2 ^ i.toNat := by
    rw [← zpow_natCast, ← zpow_natCast, ← zpow_add₀ (by norm_num)]
    congr 1
    omega
  rcases Int.eq_nat_or_neg e with ⟨m, rfl | rfl⟩
  · have hwhole : n * 10 ^ m * 2 ^ (-i).toNat = p * 2 ^ i.toNat := by
      rw [zpow_natCast] at h
      have : (n * 10 ^ m * 2 ^ (-i).toNat : ℚ) = p * 2 ^ i.toNat := by
        rw [h, mul_assoc, hbinary]
      exact_mod_cast this
    have hm := le_of_five_pow_dvd hp hp' (five_pow_dvd hwhole)
    rw [Nat.abs_cast]
    omega
  · have hwhole : p * 10 ^ m * 2 ^ i.toNat = n * 2 ^ (-i).toNat := by
      rw [zpow_neg, zpow_natCast, ← div_eq_mul_inv, div_eq_iff (by positivity)] at h
      have : (p * 10 ^ m * 2 ^ i.toNat : ℚ) = n * 2 ^ (-i).toNat := by
        rw [h, ← hbinary]
        ring
      exact_mod_cast this
    have hm := le_of_five_pow_dvd hn hn' (five_pow_dvd hwhole)
    rw [abs_neg, Nat.abs_cast]
    omega

/-- A midpoint has 25 bits. -/
theorem exists_bits_of_midpoint {x : ℚ} {j : Nat} (h : x * unitsInOne = midpoint j) :
    ∃ (p : Nat) (i : Int), 0 < p ∧ p < 2 ^ 53 ∧ x = p * 2 ^ i := by
  refine ⟨2 * kept j + 1, shift j - 150, Nat.succ_pos _, ?_, ?_⟩
  · have hkept := kept_lt j
    unfold binade at hkept
    omega
  · rw [midpoint_eq, unitsInOne_eq] at h
    have hpower : (2 : ℚ) ^ ((shift j : Int) - 150) = 2 ^ shift j / 2 ^ 150 := by
      rw [zpow_sub₀ (by norm_num), zpow_natCast]
      rfl
    rw [hpower]
    push_cast
    linarith

/-! ### Numbers between midpoints -/

/-- What is far from a midpoint stays on its side of it. -/
theorem midpoint_lt_of_far {x y : ℚ} {j : Nat} (hside : midpoint j ≤ x)
    (hfar : 2 ^ shift j / 2 ^ 27 < |x - midpoint j|) (hnear : |y - x| ≤ x / 2 ^ 51) :
    midpoint j < y := by
  have hkept : (kept j : ℚ) + 1 ≤ 2 ^ 24 := by exact_mod_cast kept_lt j
  have hstep : (0 : ℚ) < 2 ^ shift j := by positivity
  have hbound := mul_le_mul_of_nonneg_right hkept hstep.le
  rw [abs_of_nonneg (sub_nonneg.mpr hside)] at hfar
  rw [midpoint_eq] at *
  have h := (abs_le.mp hnear).1
  linarith

theorem lt_midpoint_of_far {x y : ℚ} {j : Nat} (hside : x ≤ midpoint j)
    (hfar : 2 ^ shift j / 2 ^ 27 < |x - midpoint j|) (hnear : |y - x| ≤ x / 2 ^ 51) :
    y < midpoint j := by
  have hkept : (kept j : ℚ) + 1 ≤ 2 ^ 24 := by exact_mod_cast kept_lt j
  have hstep : (0 : ℚ) < 2 ^ shift j := by positivity
  have hbound := mul_le_mul_of_nonneg_right hkept hstep.le
  rw [abs_sub_comm, abs_of_nonneg (sub_nonneg.mpr hside)] at hfar
  rw [midpoint_eq] at *
  have h := (abs_le.mp hnear).2
  linarith

/-- What comes close enough to the fewest digits of a magnitude is rounded to it, if no midpoint
next to it is one of the listed ones. -/
theorem magnitude_eq_of_not_close (tie : Tie) (hpos : 0 < b) (hb : b < infinityBits)
    (hclose : b ∉ closeMidpoints) (hclose' : ∀ j, j + 1 = b → j ∉ closeMidpoints)
    (hn : 0 < n) (hn' : n < 2 ^ 53) (hvalue : (n * 10 ^ e : ℚ) = (shortest tie b).value)
    (hq : Approximates q n e) : q.magnitude = b := by
  obtain ⟨hdigits, -, -, hread, hstep⟩ := shortest_spec tie hpos hb
  generalize shortest tie b = d at *
  have hnearest := d.nearest_eq_of_finite hpos hb hread
  obtain ⟨hlow, hhigh⟩ := midpoint_of_nearest d.den_pos hb hnearest
  rw [d.quotient_num_den] at hlow hhigh
  -- A midpoint is read exactly, and so like the digits themselves.
  have hexact {j : Nat} (h : d.value * unitsInOne = midpoint j) : q.magnitude = b := by
    obtain ⟨p, i, hp, hp', hbits⟩ := exists_bits_of_midpoint h
    rw [← hvalue] at hbits
    have hexact := hq.exact (abs_exponent_le hn hn' hp hp' hbits) hp' hbits
    rw [hvalue, ← d.num_div_den] at hexact
    rw [← hnearest]
    exact nearest_congr hq.den_pos d.den_pos hexact
  by_cases hmidpoint : ∃ j, d.value * unitsInOne = midpoint j
  · exact hexact hmidpoint.choose_spec
  have hunit : (0 : ℚ) < unitsInOne := by rw [unitsInOne_eq]; positivity
  have hnear : |quotient q.num q.den - d.value * unitsInOne| ≤
      d.value * unitsInOne / 2 ^ 51 := by
    have hquotient : quotient q.num q.den = q.value * unitsInOne := by
      rw [quotient, Quotient.value]
      ring
    have h := mul_le_mul_of_nonneg_right hq.near hunit.le
    rw [hvalue] at h
    rw [hquotient, ← sub_mul, abs_mul, abs_of_pos hunit]
    linarith
  have hfar {j : Nat} (hj : b = j ∨ b = j + 1) (hclose : j ∉ closeMidpoints) :
      2 ^ shift j / 2 ^ 27 < |d.value * unitsInOne - midpoint j| := by
    rcases d.farFromMidpoint (show j < infinityBits by omega) hj hdigits hstep hhigh with
      hmid | hfar | hmem
    · exact absurd ⟨j, hmid⟩ hmidpoint
    · exact hfar
    · exact absurd hmem hclose
  refine nearest_eq_of_between hq.den_pos hb (fun j hj => ?_) ?_
  · exact midpoint_lt_of_far (hlow j hj) (hfar (.inr hj.symm) (hclose' j hj)) hnear
  · exact lt_midpoint_of_far hhigh (hfar (.inl rfl) hclose) hnear

/-- **The fewest digits of a magnitude are read as it by way of double precision**, also with zeros
at their end, if no midpoint next to it is one of the listed ones. -/
theorem magnitude?_shortest (tie : Tie) (hpos : 0 < b) (hb : b < infinityBits)
    (hclose : b ∉ closeMidpoints) (hclose' : ∀ j, j + 1 = b → j ∉ closeMidpoints) {zeros : Nat}
    (hsmall : (shortest tie b).digits * 10 ^ zeros < 2 ^ 53) :
    magnitude? ((shortest tie b).digits * 10 ^ zeros) ((shortest tie b).exponent - zeros) =
      some b := by
  obtain ⟨hdigits, hfew, hexponent, -⟩ := shortest_spec tie hpos hb
  have hpositive := Nat.mul_pos hdigits (Nat.pow_pos (n := zeros) (show 0 < 10 by decide))
  have hzeros : zeros ≤ 60 := by
    by_contra hmany
    have hle : 10 ^ 60 ≤ 10 ^ zeros := Nat.pow_le_pow_right (by decide) (by omega)
    have hless := (hle.trans (Nat.le_mul_of_pos_left _ hdigits)).trans_lt hsmall
    exact absurd hless (by decide)
  have hvalue : ((shortest tie b).digits * 10 ^ zeros : Nat) *
      (10 : ℚ) ^ ((shortest tie b).exponent - zeros) = (shortest tie b).value := by
    rw [Decimal.value, zpow_sub₀ (by norm_num), zpow_natCast]
    push_cast
    field_simp
  have hlarge : (shortest tie b).value ≤ 2 ^ 250 := by
    have hfew' : ((shortest tie b).digits : ℚ) ≤ 10 ^ 10 + 1 := by exact_mod_cast hfew
    have hpower : (10 : ℚ) ^ (shortest tie b).exponent ≤ 10 ^ (60 : Int) :=
      zpow_le_zpow_right₀ (by norm_num) (abs_le.mp hexponent).2
    calc (shortest tie b).value
        ≤ (10 ^ 10 + 1) * 10 ^ (60 : Int) :=
          mul_le_mul hfew' hpower (by positivity) (by positivity)
      _ ≤ 2 ^ 250 := by norm_num
  have hbounds : |(shortest tie b).exponent - zeros| ≤ 300 := by
    rw [abs_le] at hexponent ⊢
    omega
  obtain ⟨q, happrox, hq⟩ := magnitude?_spec hpositive hsmall hbounds (hvalue.trans_le hlarge)
  rw [hq, magnitude_eq_of_not_close tie hpos hb hclose hclose' hpositive hsmall hvalue happrox]

end GrammarArt.Binary64
