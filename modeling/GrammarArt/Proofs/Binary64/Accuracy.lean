import GrammarArt.Binary64
import GrammarArt.Proofs.Binary32.Nearest

/-! # The accuracy of double precision

Rounding to 53 bits changes a quotient by at most `2⁻⁵³` of it (`abs_value_round_sub_le`), and not
at all if 53 bits are enough for it (`value_round_of_exact`).  A decimal that is read by way of
double precision goes through three such roundings, which makes at most `2⁻⁵¹` of it
(`magnitude?_spec`).
-/
namespace GrammarArt.Binary64

open Binary32 (roundedPart roundedPart_spec leadingBits)

namespace Quotient

variable {q : Quotient}

/-- The number that a quotient is. -/
def value (q : Quotient) : ℚ := q.num / q.den

theorem den_round_pos (q : Quotient) : 0 < q.round.den := Nat.two_pow_pos _

/-- A rounded quotient is the whole number nearest to it, on the scale on which it has 53 bits. -/
theorem exists_scale (hden : 0 < q.den) (hnum : 0 < q.num) :
    ∃ (m : Nat) (y : ℚ) (s : Int), q.value = y * 2 ^ s ∧ q.round.value = m * 2 ^ s ∧
      |m - y| ≤ 1 / 2 ∧ 2 ^ 52 ≤ y := by
  generalize hlift : 53 + q.den.log2 = lift
  generalize hshift : (q.num * 2 ^ lift / q.den).log2 - 52 = shift
  have hround : q.round = ⟨roundedPart (q.num * 2 ^ lift) q.den shift * 2 ^ shift, 2 ^ lift⟩ := by
    rw [← hshift, ← hlift]
    rfl
  obtain ⟨kept, hkept, hle, hlt, hside⟩ := roundedPart_spec (q.num * 2 ^ lift) hden shift
  have hlarge : 2 ^ 52 ≤ kept := by
    have hbits := leadingBits (q.num * 2 ^ lift / q.den) 52
    rw [hshift, ← hkept] at hbits
    refine hbits.2.elim (fun hzero => ?_) id
    -- The lift alone makes 53 bits of it.
    rw [hkept, hzero, Nat.pow_zero, Nat.div_one, Nat.le_div_iff_mul_le hden]
    calc 2 ^ 52 * q.den ≤ 2 ^ 52 * 2 ^ (q.den.log2 + 1) :=
          Nat.mul_le_mul_left _ Nat.lt_log2_self.le
      _ = 2 ^ lift := by rw [← Nat.pow_add, ← hlift]; congr 1; omega
      _ ≤ q.num * 2 ^ lift := Nat.le_mul_of_pos_left _ hnum
  have hden' : (0 : ℚ) < q.den := by exact_mod_cast hden
  have hstep : (0 : ℚ) < 2 ^ shift * q.den := by positivity
  have hscale : (2 : ℚ) ^ ((shift : Int) - lift) = 2 ^ shift / 2 ^ lift := by
    rw [zpow_sub₀ (by norm_num), zpow_natCast, zpow_natCast]
  refine ⟨roundedPart (q.num * 2 ^ lift) q.den shift, q.num * 2 ^ lift / (2 ^ shift * q.den),
    shift - lift, ?_, ?_, ?_, ?_⟩
  · rw [hscale, value]
    field_simp
  · rw [hscale, hround, value]
    push_cast
    ring
  · have hle' : (kept * (2 ^ shift * q.den) : ℚ) ≤ q.num * 2 ^ lift := by exact_mod_cast hle
    have hlt' : (q.num * 2 ^ lift : ℚ) < (kept + 1) * (2 ^ shift * q.den) := by
      exact_mod_cast hlt
    rw [← le_div_iff₀ hstep] at hle'
    rw [← div_lt_iff₀ hstep] at hlt'
    rcases hside with ⟨hround, hside⟩ | ⟨hround, hside⟩
    · have hside' : (q.num * 2 ^ lift : ℚ) ≤ (kept + 1 / 2) * (2 ^ shift * q.den) := by
        have h : (2 * (q.num * 2 ^ lift) : ℚ) ≤ (2 * kept + 1) * (2 ^ shift * q.den) := by
          exact_mod_cast hside
        linarith
      rw [← div_le_iff₀ hstep] at hside'
      rw [hround, abs_le]
      exact ⟨by linarith, by linarith⟩
    · have hside' : ((kept + 1 / 2) * (2 ^ shift * q.den) : ℚ) ≤ q.num * 2 ^ lift := by
        have h : ((2 * kept + 1) * (2 ^ shift * q.den) : ℚ) ≤ 2 * (q.num * 2 ^ lift) := by
          exact_mod_cast hside
        linarith
      rw [← le_div_iff₀ hstep] at hside'
      rw [hround, abs_le]
      push_cast
      exact ⟨by linarith, by linarith⟩
  · rw [le_div_iff₀ hstep]
    exact_mod_cast (Nat.mul_le_mul_right _ hlarge).trans hle

/-- **Rounding to 53 bits changes a quotient by at most `2⁻⁵³` of it.** -/
theorem abs_value_round_sub_le (hden : 0 < q.den) (hnum : 0 < q.num) :
    |q.round.value - q.value| ≤ q.value / 2 ^ 53 := by
  obtain ⟨m, y, s, hvalue, hround, hnear, hlarge⟩ := exists_scale hden hnum
  have hscale : (0 : ℚ) < 2 ^ s := by positivity
  calc |q.round.value - q.value| = |m - y| * 2 ^ s := by
        rw [hround, hvalue, ← sub_mul, abs_mul, abs_of_pos hscale]
    _ ≤ y / 2 ^ 53 * 2 ^ s := by
        refine mul_le_mul_of_nonneg_right (hnear.trans ?_) hscale.le
        rw [le_div_iff₀ (by positivity)]
        linarith
    _ = q.value / 2 ^ 53 := by rw [hvalue]; ring

/-- **A quotient of 53 bits is not changed.** -/
theorem value_round_of_exact (hden : 0 < q.den) (hnum : 0 < q.num) {k : Nat} {i : Int}
    (hk : k < 2 ^ 53) (h : q.value = k * 2 ^ i) : q.round.value = q.value := by
  obtain ⟨m, y, s, hvalue, hround, hnear, hlarge⟩ := exists_scale hden hnum
  have hscale : (0 : ℚ) < 2 ^ s := by positivity
  -- On its scale, the quotient is a whole number.
  have hy : y = k * 2 ^ (i - s) := by
    rw [zpow_sub₀ (by norm_num), ← mul_div_assoc, ← h, hvalue, mul_div_cancel_right₀ _ hscale.ne']
  have hexponent : 0 ≤ i - s := by
    by_contra hneg
    have hhalf : (2 : ℚ) ^ (i - s) ≤ 2 ^ (-1 : Int) :=
      zpow_le_zpow_right₀ (by norm_num) (by omega)
    have hk' : (k : ℚ) < 2 ^ 53 := by exact_mod_cast hk
    rw [hy] at hlarge
    have hpos : (0 : ℚ) < 2 ^ (i - s) := by positivity
    norm_num at hhalf
    nlinarith
  obtain ⟨j, hj⟩ := Int.eq_ofNat_of_zero_le hexponent
  have hwhole : y = ((k * 2 ^ j : ℕ) : ℚ) := by
    rw [hy, hj, zpow_natCast]
    push_cast
    rfl
  have hm : m = k * 2 ^ j := by
    rw [hwhole, abs_le] at hnear
    have h₁ : (m : ℚ) < (k * 2 ^ j : ℕ) + 1 := by linarith
    have h₂ : ((k * 2 ^ j : ℕ) : ℚ) < m + 1 := by linarith
    have h₁' : m < k * 2 ^ j + 1 := by exact_mod_cast h₁
    have h₂' : k * 2 ^ j < m + 1 := by exact_mod_cast h₂
    omega
  rw [hround, hvalue, hwhole, hm]

/-- The product of two quotients. -/
theorem value_mul (a b : Quotient) :
    value ⟨a.num * b.num, a.den * b.den⟩ = a.value * b.value := by
  simp only [value]
  push_cast
  exact (div_mul_div_comm _ _ _ _).symm

/-- The quotient of two quotients. -/
theorem value_div (a b : Quotient) :
    value ⟨a.num * b.den, a.den * b.num⟩ = a.value / b.value := by
  simp only [value]
  push_cast
  exact (div_div_div_eq _ _ _ _).symm

theorem num_pos_of_value_pos (h : 0 < q.value) : 0 < q.num := by
  refine Nat.pos_of_ne_zero fun hzero => ?_
  rw [value, hzero, Nat.cast_zero, zero_div] at h
  exact lt_irrefl _ h

end Quotient

open GrammarArt.Binary64.Quotient (value den_round_pos abs_value_round_sub_le value_round_of_exact value_mul value_div
  num_pos_of_value_pos)

/-! ### Decimals -/

theorem value_ofNat {n : Nat} (hpos : 0 < n) {k i : Nat} (hk : k < 2 ^ 53) (h : n = k * 2 ^ i) :
    (ofNat n).value = n := by
  have hvalue : value ⟨n, 1⟩ = n := by simp [value]
  refine (value_round_of_exact Nat.one_pos hpos hk (i := i) ?_).trans hvalue
  rw [hvalue, h, zpow_natCast]
  push_cast
  rfl

/-- A power of ten is close to itself, and is itself up to the one of exponent 22. -/
theorem value_ofNat_ten_pow (e : Nat) :
    |(ofNat (10 ^ e)).value - 10 ^ e| ≤ 10 ^ e / 2 ^ 53 ∧
      (e ≤ 22 → (ofNat (10 ^ e)).value = 10 ^ e) := by
  have hpos : 0 < 10 ^ e := Nat.pow_pos (by decide)
  constructor
  · have hvalue : value ⟨10 ^ e, 1⟩ = 10 ^ e := by simp [value]
    rw [← hvalue]
    exact abs_value_round_sub_le Nat.one_pos hpos
  · intro he
    have hfive : 5 ^ e < 2 ^ 53 :=
      (Nat.pow_le_pow_right (by decide) he).trans_lt (by decide)
    have h := value_ofNat hpos hfive (i := e) (by rw [← Nat.mul_pow])
    exact_mod_cast h

/-- What is read for a decimal: it is off by at most `2⁻⁵¹` of the decimal, and not at all if the
power of ten is exact and 53 bits are enough for the decimal. -/
structure Approximates (q : Quotient) (digits : Nat) (exponent : Int) : Prop where
  den_pos : 0 < q.den
  near : |q.value - digits * 10 ^ exponent| ≤ digits * 10 ^ exponent / 2 ^ 51
  exact : |exponent| ≤ 22 → ∀ {k : Nat} {i : Int}, k < 2 ^ 53 →
    (digits * 10 ^ exponent : ℚ) = k * 2 ^ i → q.value = digits * 10 ^ exponent

/-- What is computed with digits and a power of ten that is close to its exact value. -/
theorem Approximates.of_rounded {q : Quotient} {n : Nat} {e : Int} (hden : 0 < q.den)
    (hpos : 0 < n) (hnear : |q.value - n * 10 ^ e| ≤ n * 10 ^ e / 2 ^ 53 * (3 / 2))
    (hexact : |e| ≤ 22 → q.value = n * 10 ^ e) : Approximates q.round n e := by
  have hten : (0 : ℚ) < n * 10 ^ e := by positivity
  have hbounds := abs_le.mp hnear
  have hvalue : 0 < q.value := by linarith
  have hnum := num_pos_of_value_pos hvalue
  have hround := abs_le.mp (abs_value_round_sub_le hden hnum)
  refine ⟨q.den_round_pos, abs_le.mpr ⟨by linarith, by linarith⟩, fun he k i hk h => ?_⟩
  rw [← hexact he] at h ⊢
  exact value_round_of_exact hden hnum hk h

theorem approximates_mul {n e : Nat} (hpos : 0 < n) (hn : n < 2 ^ 53) :
    Approximates (Quotient.round ⟨(ofNat n).num * (ofNat (10 ^ e)).num,
      (ofNat n).den * (ofNat (10 ^ e)).den⟩) n e := by
  have hdigits := value_ofNat hpos hn (i := 0) (by rw [Nat.pow_zero, Nat.mul_one])
  obtain ⟨hnear, hexact⟩ := value_ofNat_ten_pow e
  have hn' : (0 : ℚ) < n := by exact_mod_cast hpos
  refine .of_rounded (Nat.mul_pos (den_round_pos _) (den_round_pos _)) hpos ?_ fun he => ?_
  · rw [value_mul, hdigits, zpow_natCast, ← mul_sub, abs_mul, abs_of_pos hn']
    calc n * |(ofNat (10 ^ e)).value - 10 ^ e| ≤ n * (10 ^ e / 2 ^ 53) :=
          mul_le_mul_of_nonneg_left hnear hn'.le
      _ ≤ n * 10 ^ e / 2 ^ 53 * (3 / 2) := by
          have hten : (0 : ℚ) < n * 10 ^ e := by positivity
          linarith
  · rw [value_mul, hdigits, zpow_natCast, hexact (by simpa using he)]

theorem approximates_div {n e : Nat} (hpos : 0 < n) (hn : n < 2 ^ 53) :
    Approximates (Quotient.round ⟨(ofNat n).num * (ofNat (10 ^ e)).den,
      (ofNat n).den * (ofNat (10 ^ e)).num⟩) n (-e) := by
  have hdigits := value_ofNat hpos hn (i := 0) (by rw [Nat.pow_zero, Nat.mul_one])
  obtain ⟨hnear, hexact⟩ := value_ofNat_ten_pow e
  have hn' : (0 : ℚ) < n := by exact_mod_cast hpos
  have hten : (0 : ℚ) < 10 ^ e := by positivity
  have hbounds := abs_le.mp hnear
  have hpower : 0 < (ofNat (10 ^ e)).value := by linarith
  refine .of_rounded (Nat.mul_pos (den_round_pos _) (num_pos_of_value_pos hpower)) hpos ?_
    fun he => ?_
  · rw [value_div, hdigits, zpow_neg, zpow_natCast]
    generalize (ofNat (10 ^ e)).value = power at *
    have hdiff : n / power - n * (10 ^ e)⁻¹ = n * (10 ^ e)⁻¹ * ((10 ^ e - power) / power) := by
      field_simp
    have hsmall : |(10 ^ e - power) / power| ≤ 3 / 2 / 2 ^ 53 := by
      rw [abs_div, abs_of_pos hpower, abs_sub_comm, div_le_iff₀ hpower]
      linarith
    have hx : (0 : ℚ) < n * (10 ^ e)⁻¹ := by positivity
    rw [hdiff, abs_mul, abs_of_pos hx]
    calc n * (10 ^ e)⁻¹ * |(10 ^ e - power) / power|
        ≤ n * (10 ^ e)⁻¹ * (3 / 2 / 2 ^ 53) := mul_le_mul_of_nonneg_left hsmall hx.le
      _ = n * (10 ^ e)⁻¹ / 2 ^ 53 * (3 / 2) := by ring
  · rw [value_div, hdigits, zpow_neg, zpow_natCast, hexact (by simpa using he), div_eq_mul_inv]

/-- **A decimal of up to 53 bits is read with an accuracy of 51 bits.** -/
theorem magnitude?_spec {n : Nat} {e : Int} (hpos : 0 < n) (hn : n < 2 ^ 53) (he : |e| ≤ 300)
    (hlarge : (n * 10 ^ e : ℚ) ≤ 2 ^ 250) :
    ∃ q, Approximates q n e ∧ magnitude? n e = some q.magnitude := by
  have hbounds := abs_le.mp he
  cases e with
  | ofNat e =>
    have hexponent : (e : Int) ≤ 300 := hbounds.2
    have hlarge' : (n * 10 ^ (e : Int) : ℚ) ≤ 2 ^ 250 := hlarge
    have happrox := approximates_mul (e := e) hpos hn
    refine ⟨_, happrox, ?_⟩
    have hfinite {q : Quotient} (hq : Approximates q n e) {bound : Nat}
        (hbound : 2 ^ 252 ≤ bound) : ¬ bound * q.den ≤ q.num := by
      have hden : (0 : ℚ) < q.den := by exact_mod_cast hq.den_pos
      have hx : (0 : ℚ) < n * 10 ^ (e : Int) := by positivity
      have hvalue : q.value < 2 ^ 252 := by linarith [(abs_le.mp hq.near).2]
      rw [value, div_lt_iff₀ hden] at hvalue
      have hnum : q.num < 2 ^ 252 * q.den := by exact_mod_cast hvalue
      exact Nat.not_le.mpr (hnum.trans_le (Nat.mul_le_mul_right _ hbound))
    have hsmall : ¬ 308 < e := by omega
    rw [magnitude?]
    simp only
    rw [if_neg hpos.ne', if_neg hsmall]
    split
    · rename_i hinfinite
      exact absurd hinfinite (hfinite happrox (Nat.pow_le_pow_right Nat.two_pos (by decide)))
    · rfl
  | negSucc e =>
    refine ⟨_, approximates_div (e := e + 1) hpos hn, ?_⟩
    have hsmall : ¬ 308 < e + 1 := by omega
    rw [magnitude?]
    simp only
    rw [if_neg hsmall]
    rfl

end GrammarArt.Binary64
