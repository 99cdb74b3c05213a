import GrammarArt.Proofs.Binary32.Shortest

/-! # Short decimals near midpoints

The decimal with the fewest digits that is read as a magnitude may come close to a midpoint next to
that magnitude.  How close matters to those who read it with a small error: a midpoint itself does
no harm, since it has too few bits for an error to be made, but a decimal may also come very close
to a midpoint that it is not.  It can do so at the 13 midpoints of a list (`closeMidpoints`), and
nowhere else (`Decimal.farFromMidpoint`).

Below some power of ten the grid of a decimal is so fine that the decimal is far from the midpoints
already because it is at most one step away from the magnitude (`farFromMidpoint_of_fine`).  From
this power on (`coarse`), the decimals are its multiples; and the multiples of a ratio come close to
whole numbers only as often as two fractions allow that bracket the ratio
(`Near.Brackets.cases`).  So there are two pairs to be looked at for each exponent (`Sparse`),
which is a computation for all of them (`sparse_of_lt`).
-/
namespace GrammarArt.Binary32

/-! ### Multiples of a ratio near whole numbers -/

/-- A multiple of a ratio and a whole number near it. -/
structure Near where
  times : Nat
  whole : Nat
  deriving DecidableEq, Repr

namespace Near

/-- Several times one pair added to another one. -/
def add (a b : Near) (n : Nat) : Near := ⟨a.times + n * b.times, a.whole + n * b.whole⟩

/-- How far a multiple of `num / den` is above its whole number, as a multiple of `1 / den`. -/
def excess (num den : Nat) (a : Near) : Nat := a.times * num - a.whole * den

/-- How far it is below its whole number. -/
def lack (num den : Nat) (a : Near) : Nat := a.whole * den - a.times * num

/-- Two pairs that are drawn closer to the ratio from both sides, each one by the other, as long
as they do not go past it and the multiples stay below a bound. -/
def narrow (num den bound : Nat) : (steps : Nat) → (below above : Near) → Near × Near
  | 0, below, above => (below, above)
  | steps + 1, below, above =>
    let room := (bound - above.times) / below.times
    let above := above.add below (if below.excess num den = 0 then room
      else min room (above.lack num den / below.excess num den))
    let room := (bound - below.times) / above.times
    let below := below.add above (if above.lack num den = 0 then room
      else min room (below.excess num den / above.lack num den))
    narrow num den bound steps below above

/-- One pair is below the ratio and the other one above it, and no pair is between them. -/
structure Brackets (num den : Nat) (below above : Near) : Prop where
  unimodular : below.times * above.whole = above.times * below.whole + 1
  below : below.whole * den ≤ below.times * num
  above : above.times * num ≤ above.whole * den

instance (num den : Nat) (below above : Near) : Decidable (Brackets num den below above) :=
  decidable_of_iff (below.times * above.whole = above.times * below.whole + 1 ∧
      below.whole * den ≤ below.times * num ∧ above.times * num ≤ above.whole * den)
    ⟨fun h => ⟨h.1, h.2.1, h.2.2⟩, fun h => ⟨h.unimodular, h.below, h.above⟩⟩

variable {num den : Nat} {below above : Near}

theorem Brackets.excess_eq (h : Brackets num den below above) :
    (below.excess num den : ℤ) = below.times * num - below.whole * den := by
  rw [excess, Nat.cast_sub h.below]
  push_cast
  rfl

theorem Brackets.lack_eq (h : Brackets num den below above) :
    (above.lack num den : ℤ) = above.whole * den - above.times * num := by
  rw [lack, Nat.cast_sub h.above]
  push_cast
  rfl

/-- Every pair is a combination of the neighbors, and is as far from the ratio as they are
together. -/
theorem Brackets.exists_combination (h : Brackets num den below above) (n p : Nat) :
    ∃ i j : ℤ, (n : ℤ) = i * below.times + j * above.times ∧
      (p : ℤ) = i * below.whole + j * above.whole ∧
      (n * num - p * den : ℤ) = i * below.excess num den - j * above.lack num den := by
  have hunimodular : (below.times * above.whole : ℤ) = above.times * below.whole + 1 := by
    exact_mod_cast h.unimodular
  have htimes : (n : ℤ) = (n * above.whole - p * above.times) * below.times +
      (p * below.times - n * below.whole) * above.times := by
    linear_combination (-n : ℤ) * hunimodular
  have hwhole : (p : ℤ) = (n * above.whole - p * above.times) * below.whole +
      (p * below.times - n * below.whole) * above.whole := by
    linear_combination (-p : ℤ) * hunimodular
  refine ⟨_, _, htimes, hwhole, ?_⟩
  rw [h.excess_eq, h.lack_eq]
  linear_combination (num : ℤ) * htimes - (den : ℤ) * hwhole

/-- A combination that is positive and less than both together takes only one of them, or takes
them with different signs. -/
theorem combination_cases {i j b a e l : ℤ} (hb : 0 ≤ b) (ha : 0 ≤ a) (he : 0 ≤ e) (hl : 0 ≤ l)
    (hpos : 0 < i * b + j * a) (hless : i * b + j * a < b + a) :
    j = 0 ∧ 0 ≤ i ∨ i = 0 ∧ 0 ≤ j ∨ e + l ≤ |i * e - j * l| := by
  rcases lt_trichotomy j 0 with hj | rfl | hj
  · have hi : 0 < i := by
      by_contra hi
      have h₁ := mul_nonpos_of_nonpos_of_nonneg (not_lt.mp hi) hb
      have h₂ := mul_nonpos_of_nonpos_of_nonneg hj.le ha
      linarith
    have h₁ := le_mul_of_one_le_left he hi
    have h₂ := le_mul_of_one_le_left hl (show 1 ≤ -j by omega)
    exact .inr (.inr (le_trans (by linarith) (le_abs_self _)))
  · refine .inl ⟨rfl, ?_⟩
    by_contra hi
    have h₁ := mul_nonpos_of_nonpos_of_nonneg (not_le.mp hi).le hb
    linarith
  · rcases lt_trichotomy i 0 with hi | rfl | hi
    · have h₁ := le_mul_of_one_le_left he (show 1 ≤ -i by omega)
      have h₂ := le_mul_of_one_le_left hl hj
      exact .inr (.inr (le_trans (by linarith) (neg_le_abs _)))
    · exact .inr (.inl ⟨rfl, hj.le⟩)
    · -- At least one of each is too many.
      have h₁ := le_mul_of_one_le_left hb hi
      have h₂ := le_mul_of_one_le_left ha hj
      linarith

/-- **Between two neighbors there is nothing nearer.**  A multiple that is less than those of the
neighbors together is one of theirs, taken several times, or it is as far from every whole number
as both of them together. -/
theorem Brackets.cases (h : Brackets num den below above) {n p : Nat} (hpos : 0 < n)
    (hless : n < below.times + above.times) :
    (∃ k, n = k * below.times ∧ p = k * below.whole) ∨
      (∃ k, n = k * above.times ∧ p = k * above.whole) ∨
      (below.excess num den + above.lack num den : ℤ) ≤ |(n * num - p * den : ℤ)| := by
  obtain ⟨i, j, htimes, hwhole, hdistance⟩ := h.exists_combination n p
  have hpos' : (0 : ℤ) < n := by exact_mod_cast hpos
  have hless' : (n : ℤ) < below.times + above.times := by exact_mod_cast hless
  rw [htimes] at hpos' hless'
  rw [hdistance]
  rcases combination_cases (Int.natCast_nonneg _) (Int.natCast_nonneg _) (Int.natCast_nonneg _)
    (Int.natCast_nonneg _) hpos' hless' with ⟨rfl, hi⟩ | ⟨rfl, hj⟩ | hfar
  · obtain ⟨k, rfl⟩ := Int.eq_ofNat_of_zero_le hi
    rw [zero_mul, add_zero] at htimes hwhole
    exact .inl ⟨k, by exact_mod_cast htimes, by exact_mod_cast hwhole⟩
  · obtain ⟨k, rfl⟩ := Int.eq_ofNat_of_zero_le hj
    rw [zero_mul, zero_add] at htimes hwhole
    exact .inr (.inl ⟨k, by exact_mod_cast htimes, by exact_mod_cast hwhole⟩)
  · exact .inr (.inr hfar)

/-- The distance of a multiple that is one of the lower neighbor, taken several times. -/
theorem Brackets.abs_below (h : Brackets num den below above) (k : Nat) :
    |((k * below.times : Nat) * num - (k * below.whole : Nat) * den : ℤ)| =
      k * below.excess num den := by
  have hnonneg : (0 : ℤ) ≤ k * below.excess num den := by positivity
  rw [← abs_of_nonneg hnonneg, h.excess_eq]
  push_cast
  congr 1
  ring

theorem Brackets.abs_above (h : Brackets num den below above) (k : Nat) :
    |((k * above.times : Nat) * num - (k * above.whole : Nat) * den : ℤ)| =
      k * above.lack num den := by
  have hnonneg : (0 : ℤ) ≤ k * above.lack num den := by positivity
  rw [abs_sub_comm, ← abs_of_nonneg hnonneg, h.lack_eq]
  push_cast
  congr 1
  ring

end Near

/-! ### The ratios of all exponents -/

/-- From this power of ten on, decimals are few among the magnitudes of an exponent. -/
def coarse (s : Nat) : Int := (1233 * ((s : Int) - 150) - 1) / 4096 + 1

/-- This power of ten is `ratioNum s / ratioDen s` halves of the distance of the magnitudes. -/
def ratioNum (s : Nat) : Nat := 10 ^ (coarse s).toNat * 2 ^ 150

def ratioDen (s : Nat) : Nat := 10 ^ (-coarse s).toNat * 2 ^ s

/-- The halves of the distance that magnitudes of an exponent have, and some more. -/
def reach : Nat := 2 ^ 25 + 2

/-- The magnitudes below the midpoints that some short decimal comes close to, but is not. -/
def closeMidpoints : List Nat :=
  [120321464, 143231827, 151620435, 239248210, 363742205, 372130813, 853298129, 901062220,
    928506023, 1642525744, 1650914352, 1708115673, 1740160716]

/-- The odd multiples of a pair are exact, or far from their whole numbers, or too large, but for
the pair itself if it is listed. -/
def Settled (s : Nat) (a : Near) (error : Nat) : Prop :=
  error = 0 ∨ ratioDen s < 2 ^ 26 * error ∨ a.whole % 2 = 0 ∨ 2 ^ 25 ≤ a.whole ∨
    a.whole / 2 + s * binade ∈ closeMidpoints ∧
      (2 ^ 25 ≤ 3 * a.whole ∨ ratioDen s < 2 ^ 26 * (3 * error))

instance (s : Nat) (a : Near) (error : Nat) : Decidable (Settled s a error) :=
  inferInstanceAs (Decidable (_ ∨ _))

/-- The neighbors of the ratio of an exponent that are found in twenty steps. -/
def neighbors (s : Nat) : Near × Near :=
  Near.narrow (ratioNum s) (ratioDen s) (reach * ratioDen s / ratioNum s) 20
    ⟨1, ratioNum s / ratioDen s⟩ ⟨0, 1⟩

/-- What the neighbors of the ratio of an exponent have to show. -/
def Sparse (s : Nat) : Prop :=
  2049 * ratioNum s ≤ 20480 * ratioDen s ∧
    Near.Brackets (ratioNum s) (ratioDen s) (neighbors s).1 (neighbors s).2 ∧
    reach * ratioDen s < ((neighbors s).1.times + (neighbors s).2.times) * ratioNum s ∧
    ratioDen s < 2 ^ 26 * ((neighbors s).1.excess (ratioNum s) (ratioDen s) +
      (neighbors s).2.lack (ratioNum s) (ratioDen s)) ∧
    Settled s (neighbors s).1 ((neighbors s).1.excess (ratioNum s) (ratioDen s)) ∧
    Settled s (neighbors s).2 ((neighbors s).2.lack (ratioNum s) (ratioDen s))

instance (s : Nat) : Decidable (Sparse s) := inferInstanceAs (Decidable (_ ∧ _))

/-- The exponents of all finite magnitudes. -/
theorem sparse_of_lt : ∀ s < 254, Sparse s := by decide +kernel

variable {s n p : Nat}

/-- An odd multiple of a settled pair. -/
theorem Settled.far {a : Near} {error k : Nat} (h : Settled s a error) (hp : p = k * a.whole)
    (hodd : p % 2 = 1) (hless : p < 2 ^ 25) :
    k * error = 0 ∨ ratioDen s < 2 ^ 26 * (k * error) ∨
      p / 2 + s * binade ∈ closeMidpoints := by
  have hk : k % 2 = 1 := by
    rw [hp, Nat.mul_mod] at hodd
    rcases Nat.mod_two_eq_zero_or_one k with hk | hk
    · rw [hk, Nat.zero_mul] at hodd
      cases hodd
    · exact hk
  rcases h with hexact | hfar | heven | hlarge | ⟨hmem, hthree⟩
  · exact .inl (by rw [hexact, Nat.mul_zero])
  · refine .inr (.inl (hfar.trans_le (Nat.mul_le_mul_left _ ?_)))
    exact Nat.le_mul_of_pos_left _ (by omega)
  · rw [hp, Nat.mul_mod, heven, Nat.mul_zero] at hodd
    cases hodd
  · have hle := Nat.le_mul_of_pos_left a.whole (show 0 < k by omega)
    omega
  · rcases Nat.lt_or_ge k 3 with hone | hmany
    · have hk' : k = 1 := by omega
      rw [hk', Nat.one_mul] at hp
      exact .inr (.inr (hp ▸ hmem))
    · rcases hthree with hlarge | hfar
      · have hle := Nat.mul_le_mul_right a.whole hmany
        omega
      · exact .inr (.inl (hfar.trans_le (Nat.mul_le_mul_left _ (Nat.mul_le_mul_right _ hmany))))

/-- **A multiple of the ratio is an odd number, or far from it**, but for the few that are
listed. -/
theorem Sparse.far (h : Sparse s) (hpos : 0 < n) (hreach : n * ratioNum s ≤ reach * ratioDen s)
    (hodd : p % 2 = 1) (hless : p < 2 ^ 25) :
    n * ratioNum s = p * ratioDen s ∨
      (ratioDen s : ℤ) < 2 ^ 26 * |(n * ratioNum s - p * ratioDen s : ℤ)| ∨
      p / 2 + s * binade ∈ closeMidpoints := by
  obtain ⟨-, hbrackets, hbound, hbetween, hbelow, habove⟩ := h
  have hfew : n < (neighbors s).1.times + (neighbors s).2.times :=
    lt_of_mul_lt_mul_right (hreach.trans_lt hbound) (Nat.zero_le _)
  -- What is said of the distance of a multiple.
  have hsettled {k error : Nat}
      (hdistance : |(n * ratioNum s - p * ratioDen s : ℤ)| = k * error)
      (h : k * error = 0 ∨ ratioDen s < 2 ^ 26 * (k * error) ∨
        p / 2 + s * binade ∈ closeMidpoints) :
      n * ratioNum s = p * ratioDen s ∨
        (ratioDen s : ℤ) < 2 ^ 26 * |(n * ratioNum s - p * ratioDen s : ℤ)| ∨
        p / 2 + s * binade ∈ closeMidpoints := by
    rw [hdistance]
    rcases h with hzero | hfar | hmem
    · rw [show (k * error : ℤ) = 0 by exact_mod_cast hzero, abs_eq_zero, sub_eq_zero] at hdistance
      exact .inl (by exact_mod_cast hdistance)
    · exact .inr (.inl (by exact_mod_cast hfar))
    · exact .inr (.inr hmem)
  rcases hbrackets.cases (p := p) hpos hfew with ⟨k, hn, hp⟩ | ⟨k, hn, hp⟩ | hfar
  · have hdistance := hbrackets.abs_below k
    rw [← hn, ← hp] at hdistance
    exact hsettled hdistance (hbelow.far hp hodd hless)
  · have hdistance := hbrackets.abs_above k
    rw [← hn, ← hp] at hdistance
    exact hsettled hdistance (habove.far hp hodd hless)
  · refine .inr (.inl (lt_of_lt_of_le ?_ (mul_le_mul_of_nonneg_left hfar (by norm_num))))
    exact_mod_cast hbetween

/-! ### Decimals near midpoints -/

theorem ratioDen_pos (s : Nat) : 0 < ratioDen s :=
  Nat.mul_pos (Nat.pow_pos (by decide)) (Nat.two_pow_pos _)

/-- The power of ten in halves of the distance of the magnitudes. -/
theorem ratio_eq (s : Nat) :
    (ratioNum s : ℚ) = 10 ^ coarse s * (2 * unitsInOne) / 2 ^ s * ratioDen s := by
  have hunit : (2 * unitsInOne : ℚ) = (2 ^ 150 : Nat) := by rw [unitsInOne_eq]; norm_num
  rw [ratioNum, ratioDen, Nat.cast_mul, Nat.cast_mul, ← hunit, Nat.cast_pow, Nat.cast_pow,
    Nat.cast_pow, Nat.cast_ofNat, Nat.cast_ofNat]
  rcases Int.eq_nat_or_neg (coarse s) with ⟨k, h | h⟩
  · have hneg : (-(k : Int)).toNat = 0 := by omega
    rw [h, hneg, Int.toNat_natCast, zpow_natCast, pow_zero, one_mul]
    field_simp
  · have hneg : (-(k : Int)).toNat = 0 := by omega
    rw [h, hneg, Int.neg_neg, Int.toNat_natCast, zpow_neg, zpow_natCast, pow_zero, one_mul]
    field_simp

theorem shift_lt (hb : b < infinityBits) : shift b < 254 := by
  unfold shift infinityBits binade at *
  omega

theorem kept_add_shift (b : Nat) : kept b + shift b * binade = b := by
  unfold kept shift binade
  omega

/-- The midpoint above the next magnitude is not far. -/
theorem midpoint_succ_le (b : Nat) : midpoint (b + 1) ≤ (2 * kept b + 4) * 2 ^ shift b / 2 := by
  have hshift : shift (b + 1) ≤ shift b + 1 := by unfold shift binade; omega
  have hstep : (2 : ℚ) ^ shift (b + 1) ≤ 2 ^ shift b * 2 := by
    rw [← pow_succ]
    exact pow_le_pow_right₀ (by norm_num) hshift
  have hunits : (units (b + 1) : ℚ) = (kept b + 1) * 2 ^ shift b := by
    rw [units_succ]
    push_cast
    rfl
  rw [units_eq_kept] at hunits
  push_cast at hunits
  rw [midpoint_eq, add_mul, mul_assoc, hunits]
  linarith

/-- A number is the midpoint above a magnitude, or far from it, or the midpoint is listed. -/
def FarFromMidpoint (j : Nat) (x : ℚ) : Prop :=
  x = midpoint j ∨ 2 ^ shift j / 2 ^ 27 < |x - midpoint j| ∨ j ∈ closeMidpoints

theorem abs_units_sub_midpoint {b j : Nat} (hb : b = j ∨ b = j + 1) :
    |units b - midpoint j| = 2 ^ shift j / 2 := by
  rcases hb with rfl | rfl
  · rw [midpoint_eq, units_eq_kept, abs_sub_comm, abs_eq (by positivity)]
    push_cast
    exact .inl (by ring)
  · rw [midpoint_eq, units_succ, abs_eq (by positivity)]
    push_cast
    exact .inl (by ring)

/-- One step of a finer grid does not lead from a magnitude to a midpoint. -/
theorem farFromMidpoint_of_fine {b j : Nat} {e : Int} {x : ℚ} (hj : j < infinityBits)
    (hb : b = j ∨ b = j + 1) (he : e < coarse (shift j))
    (hnear : |x - units b| ≤ 10 ^ e * unitsInOne) : FarFromMidpoint j x := by
  have hunit : (0 : ℚ) < unitsInOne := by rw [unitsInOne_eq]; positivity
  have hstep : (0 : ℚ) < 2 ^ shift j := by positivity
  have hden : (0 : ℚ) < ratioDen (shift j) := by exact_mod_cast ratioDen_pos _
  have hsmall : (10 ^ coarse (shift j) * unitsInOne : ℚ) * 2049 ≤ 10240 * 2 ^ shift j := by
    have h : (2049 * ratioNum (shift j) : ℚ) ≤ 20480 * ratioDen (shift j) := by
      exact_mod_cast (sparse_of_lt _ (shift_lt hj)).1
    rw [ratio_eq, ← mul_assoc, mul_le_mul_iff_of_pos_right hden, ← mul_div_assoc,
      div_le_iff₀ hstep] at h
    linarith
  have hpoint : (10 ^ e * unitsInOne : ℚ) * 10 ≤ 10 ^ coarse (shift j) * unitsInOne := by
    have hten : (10 ^ e * 10 : ℚ) ≤ 10 ^ coarse (shift j) := by
      rw [← zpow_add_one₀ (by norm_num)]
      exact zpow_le_zpow_right₀ (by norm_num) he
    linarith [mul_le_mul_of_nonneg_right hten hunit.le]
  have htriangle := abs_sub_le (units b : ℚ) x (midpoint j)
  rw [abs_units_sub_midpoint hb, abs_sub_comm (units b : ℚ)] at htriangle
  exact .inr (.inl (by linarith))

/-- The distance of two numbers, by that of their multiples in the numbers of a ratio. -/
theorem lt_abs_sub_of_scaled {d n m k : Nat} {x y step : ℚ} (hd : 0 < d) (hstep : 0 < step)
    (hscaled : (x - y) * (2 * d) = (n * m - k * d) * step)
    (hfar : (d : ℤ) < 2 ^ 26 * |(n * m - k * d : ℤ)|) : step / 2 ^ 27 < |x - y| := by
  have hd' : (0 : ℚ) < d := by exact_mod_cast hd
  have hfar' : (d : ℚ) < 2 ^ 26 * |(n * m - k * d : ℚ)| := by exact_mod_cast hfar
  have habs : |x - y| * (2 * d) = |(n * m - k * d : ℚ)| * step := by
    rw [← abs_of_pos (show (0 : ℚ) < 2 * d by linarith), ← abs_mul, hscaled, abs_mul,
      abs_of_pos hstep]
  rw [div_lt_iff₀ (by positivity)]
  refine lt_of_mul_lt_mul_right ?_ hd'.le
  calc step * d
      < step * (2 ^ 26 * |(n * m - k * d : ℚ)|) := mul_lt_mul_of_pos_left hfar' hstep
    _ = 2 ^ 26 * (|x - y| * (2 * d)) := by
        rw [habs]
        ring
    _ = |x - y| * 2 ^ 27 * d := by ring

/-- A multiple of the coarse power of ten that is not much above the midpoint. -/
theorem farFromMidpoint_of_multiple {n j : Nat} {x : ℚ} (hj : j < infinityBits) (hpos : 0 < n)
    (hx : x * (2 * ratioDen (shift j)) = n * ratioNum (shift j) * 2 ^ shift j)
    (hupper : x ≤ midpoint (j + 1)) : FarFromMidpoint j x := by
  have hstep : (0 : ℚ) < 2 ^ shift j := by positivity
  have hden : (0 : ℚ) < ratioDen (shift j) := by exact_mod_cast ratioDen_pos _
  have hbits : 2 * kept j + 4 ≤ reach ∧ 2 * kept j + 1 < 2 ^ 25 := by
    have h := kept_lt j
    unfold reach binade at *
    omega
  have hreach : n * ratioNum (shift j) ≤ reach * ratioDen (shift j) := by
    have hkept : (2 * kept j + 4 : ℚ) ≤ reach := by exact_mod_cast hbits.1
    have h : (n * ratioNum (shift j) * 2 ^ shift j : ℚ) ≤
        reach * ratioDen (shift j) * 2 ^ shift j := by
      rw [← hx]
      calc x * (2 * ratioDen (shift j))
          ≤ (2 * kept j + 4) * 2 ^ shift j / 2 * (2 * ratioDen (shift j)) := by
            have hle := hupper.trans (midpoint_succ_le j)
            gcongr
        _ = (2 * kept j + 4) * (2 ^ shift j * ratioDen (shift j)) := by ring
        _ ≤ reach * (2 ^ shift j * ratioDen (shift j)) := by gcongr
        _ = reach * ratioDen (shift j) * 2 ^ shift j := by ring
    exact_mod_cast le_of_mul_le_mul_right h hstep
  have hdifference : (x - midpoint j) * (2 * ratioDen (shift j)) =
      (n * ratioNum (shift j) - (2 * kept j + 1 : ℕ) * ratioDen (shift j)) * 2 ^ shift j := by
    rw [sub_mul, hx, midpoint_eq]
    push_cast
    ring
  have hfar := (sparse_of_lt _ (shift_lt hj)).far hpos hreach (p := 2 * kept j + 1) (by omega)
    hbits.2
  have hplace : (2 * kept j + 1) / 2 + shift j * binade = j := by
    rw [show (2 * kept j + 1) / 2 = kept j by omega, kept_add_shift]
  rw [hplace] at hfar
  rcases hfar with hexact | hfar | hmem
  · left
    have hzero : (x - midpoint j) * (2 * ratioDen (shift j)) = 0 := by
      rw [hdifference, mul_eq_zero, sub_eq_zero]
      exact .inl (by exact_mod_cast hexact)
    rcases mul_eq_zero.mp hzero with hzero | hzero
    · exact sub_eq_zero.mp hzero
    · linarith
  · exact .inr (.inl (lt_abs_sub_of_scaled (ratioDen_pos _) hstep hdifference hfar))
  · exact .inr (.inr hmem)

/-- **A decimal that is read as a magnitude and no more than one step of its own grid away from
it is a midpoint next to the magnitude, or far from it**, but for the listed midpoints. -/
theorem Decimal.farFromMidpoint {d : Decimal} {b j : Nat} (hj : j < infinityBits)
    (hb : b = j ∨ b = j + 1) (hpos : 0 < d.digits)
    (hnear : |d.value * unitsInOne - units b| ≤ 10 ^ d.exponent * unitsInOne)
    (hupper : d.value * unitsInOne ≤ midpoint b) :
    FarFromMidpoint j (d.value * unitsInOne) := by
  rcases lt_or_ge d.exponent (coarse (shift j)) with he | he
  · exact farFromMidpoint_of_fine hj hb he hnear
  · obtain ⟨k, hk⟩ := Int.eq_ofNat_of_zero_le (show 0 ≤ d.exponent - coarse (shift j) by omega)
    have hpower : (10 : ℚ) ^ d.exponent = 10 ^ k * 10 ^ coarse (shift j) := by
      rw [← zpow_natCast, ← zpow_add₀ (by norm_num)]
      congr 1
      omega
    refine farFromMidpoint_of_multiple (n := d.digits * 10 ^ k) hj
      (Nat.mul_pos hpos (Nat.pow_pos (by decide))) ?_ (hupper.trans ?_)
    · rw [ratio_eq, Decimal.value, hpower]
      push_cast
      field_simp
    · rcases hb with rfl | rfl
      · exact midpoint_strictMono.monotone (Nat.le_succ _)
      · exact le_rfl

end GrammarArt.Binary32
