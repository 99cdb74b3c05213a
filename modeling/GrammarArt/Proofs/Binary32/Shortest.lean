import GrammarArt.Proofs.Binary32.Nearest

/-! # How short the shortest digits are

The digits that are printed for a finite magnitude are a point of a grid next to the magnitude
(`shortest_spec`): the finest grid that is tried is fine enough to have one that reads back, so
the exact value, which would be the last resort, is never printed.
-/
namespace GrammarArt.Binary32

variable {b : Nat} {tie : Tie} {grid : Int} {d : Decimal}

/-! ### Decimals as quotients -/

namespace Decimal

/-- The number that a decimal is. -/
def value (d : Decimal) : ℚ := d.digits * 10 ^ d.exponent

/-- A decimal as a quotient. -/
def num (d : Decimal) : Nat := d.digits * 10 ^ d.exponent.toNat

def den (d : Decimal) : Nat := 10 ^ (-d.exponent).toNat

theorem den_pos (d : Decimal) : 0 < d.den := Nat.pow_pos (by decide)

theorem num_div_den (d : Decimal) : (d.num : ℚ) / d.den = d.value := by
  rcases Int.eq_nat_or_neg d.exponent with ⟨n, h | h⟩
  · simp [num, den, value, h]
  · simp [num, den, value, h, div_eq_mul_inv]

/-- A decimal in units. -/
theorem quotient_num_den (d : Decimal) : quotient d.num d.den = d.value * unitsInOne := by
  rw [quotient, ← d.num_div_den]
  ring

/-- What is read as zero without a look at its value is less than half a unit. -/
theorem value_lt_of_log2 {n k : Nat} (h : n.log2 + 151 ≤ 3 * k) :
    ((⟨n, -k⟩ : Decimal).value * unitsInOne : ℚ) < 1 := by
  have hn : (n : ℚ) < 2 ^ (n.log2 + 1) := by exact_mod_cast Nat.lt_log2_self
  have hpow : (2 : ℚ) ^ (n.log2 + 1) * 2 ^ 149 ≤ 10 ^ k :=
    calc (2 : ℚ) ^ (n.log2 + 1) * 2 ^ 149 = 2 ^ (n.log2 + 150) := by rw [← pow_add]
      _ ≤ 2 ^ (3 * k) := pow_le_pow_right₀ (by norm_num) (by omega)
      _ = 8 ^ k := by rw [pow_mul]; norm_num
      _ ≤ 10 ^ k := pow_le_pow_left₀ (by norm_num) (by norm_num) k
  have hten : (0 : ℚ) < 10 ^ k := by positivity
  simp only [value, zpow_neg, zpow_natCast, unitsInOne, Nat.pow_eq]
  push_cast
  rw [← div_eq_mul_inv, div_mul_eq_mul_div, div_lt_one hten]
  calc (n : ℚ) * 2 ^ 149 < 2 ^ (n.log2 + 1) * 2 ^ 149 := by gcongr
    _ ≤ 10 ^ k := hpow

theorem num_den_ofNat (n e : Nat) :
    (⟨n, e⟩ : Decimal).num = n * 10 ^ e ∧ (⟨n, e⟩ : Decimal).den = 1 := by
  have hzero : (-(e : Int)).toNat = 0 := by omega
  exact ⟨rfl, by rw [den, hzero, Nat.pow_zero]⟩

theorem num_den_neg (n k : Nat) :
    (⟨n, -k⟩ : Decimal).num = n ∧ (⟨n, -k⟩ : Decimal).den = 10 ^ k := by
  have hzero : (-(k : Int)).toNat = 0 := by omega
  have hneg : (-(-(k : Int))).toNat = k := by omega
  exact ⟨by rw [num, hzero, Nat.pow_zero, Nat.mul_one], by rw [den, hneg]⟩

theorem nearest_ofNat (n e : Nat) : (⟨n, e⟩ : Decimal).nearest = if n = 0 then 0
    else if 39 ≤ e then infinityBits else Binary32.nearest (n * 10 ^ e) 1 := rfl

theorem nearest_neg (n k : Nat) : (⟨n, -(k + 1 : Nat)⟩ : Decimal).nearest =
    if n.log2 + 151 ≤ 3 * (k + 1) then 0 else Binary32.nearest n (10 ^ (k + 1)) := rfl

theorem exponent_cases (e : Int) : (∃ n : Nat, e = n) ∨ ∃ k : Nat, e = -(k + 1 : Nat) := by
  cases e with
  | ofNat n => exact .inl ⟨n, rfl⟩
  | negSucc k => exact .inr ⟨k, rfl⟩

/-- A decimal of at least one unit and below all powers of ten that are taken for infinity is
read by its quotient. -/
theorem nearest_eq (hexponent : d.exponent < 39) (hunit : 1 ≤ d.value * unitsInOne) :
    Binary32.nearest d.num d.den = d.nearest := by
  obtain ⟨n, e⟩ := d
  rcases exponent_cases e with ⟨e, rfl⟩ | ⟨k, rfl⟩
  · have hn : n ≠ 0 := by
      rintro rfl
      norm_num [value] at hunit
    have he : ¬ 39 ≤ e := Nat.not_le.mpr (Int.ofNat_lt.mp hexponent)
    rw [nearest_ofNat, if_neg hn, if_neg he, (num_den_ofNat n e).1, (num_den_ofNat n e).2]
  · have hlog : ¬ n.log2 + 151 ≤ 3 * (k + 1) := fun hlog =>
      absurd hunit (not_le.mpr (value_lt_of_log2 hlog))
    rw [nearest_neg, if_neg hlog, (num_den_neg n (k + 1)).1, (num_den_neg n (k + 1)).2]

/-- A decimal that is read as a finite magnitude, and not as zero, is read by its quotient. -/
theorem nearest_eq_of_finite (hpos : 0 < b) (hb : b < infinityBits) (h : d.nearest = b) :
    Binary32.nearest d.num d.den = b := by
  obtain ⟨n, e⟩ := d
  rcases exponent_cases e with ⟨e, rfl⟩ | ⟨k, rfl⟩
  · rw [nearest_ofNat] at h
    split at h
    · exact absurd h hpos.ne
    · split at h
      · exact absurd h hb.ne'
      · rwa [(num_den_ofNat n e).1, (num_den_ofNat n e).2]
  · rw [nearest_neg] at h
    split at h
    · exact absurd h hpos.ne
    · rwa [(num_den_neg n (k + 1)).1, (num_den_neg n (k + 1)).2]

end Decimal

open Decimal (exponent_cases)

/-! ### Points of a grid -/

theorem unitsInOne_eq : (unitsInOne : ℚ) = 2 ^ 149 := by
  rw [unitsInOne, Nat.pow_eq]
  norm_num

/-- The point below a number and the next one above it. -/
theorem gridPoint_spec (half : Nat) (grid : Int) :
    gridPoint half grid * 10 ^ grid * (2 * unitsInOne) ≤ (half : ℚ) ∧
      (half : ℚ) < (gridPoint half grid + 1) * 10 ^ grid * (2 * unitsInOne) := by
  have hunit : 0 < 2 * unitsInOne := Nat.mul_pos Nat.two_pos (Nat.two_pow_pos _)
  rcases exponent_cases grid with ⟨k, rfl⟩ | ⟨k, rfl⟩
  · have hstep : 0 < 2 * unitsInOne * 10 ^ k := Nat.mul_pos hunit (Nat.pow_pos (by decide))
    have hpoint : gridPoint half k = half / (2 * unitsInOne * 10 ^ k) := rfl
    have hle := Nat.div_mul_le_self half (2 * unitsInOne * 10 ^ k)
    have hlt := Nat.lt_div_mul_add (a := half) hstep
    rw [← hpoint] at hle hlt
    rw [zpow_natCast]
    constructor
    · calc (gridPoint half k * 10 ^ k * (2 * unitsInOne) : ℚ)
          = (gridPoint half k * (2 * unitsInOne * 10 ^ k) : ℕ) := by push_cast; ring
        _ ≤ half := by exact_mod_cast hle
    · calc (half : ℚ) < (gridPoint half k * (2 * unitsInOne * 10 ^ k) +
            2 * unitsInOne * 10 ^ k : ℕ) := by exact_mod_cast hlt
        _ = (gridPoint half k + 1) * 10 ^ k * (2 * unitsInOne) := by push_cast; ring
  · have hpoint : gridPoint half (-(k + 1 : Nat)) = half * 10 ^ (k + 1) / (2 * unitsInOne) := rfl
    have hle := Nat.div_mul_le_self (half * 10 ^ (k + 1)) (2 * unitsInOne)
    have hlt := Nat.lt_div_mul_add (a := half * 10 ^ (k + 1)) hunit
    rw [← hpoint] at hle hlt
    have hten : (0 : ℚ) < 10 ^ (k + 1) := by positivity
    rw [zpow_neg, zpow_natCast]
    constructor
    · rw [mul_right_comm, ← div_eq_mul_inv, div_le_iff₀ hten]
      exact_mod_cast hle
    · rw [mul_right_comm, ← div_eq_mul_inv, lt_div_iff₀ hten, add_mul, one_mul]
      exact_mod_cast hlt

/-- What is taken from a grid is one of the two points next to the magnitude. -/
theorem exists_of_closest (h : closest tie b grid = some d) :
    (d = ⟨gridPoint (2 * units b) grid, grid⟩ ∧ d.digits ≠ 0 ∨
      d = ⟨gridPoint (2 * units b) grid + 1, grid⟩) ∧ d.nearest = b := by
  refine ⟨?_, nearest_of_closest h⟩
  unfold closest at h
  simp only at h
  split at h
  · cases h
  · rename_i hbelow _
    cases h
    exact .inl ⟨rfl, (of_decide_eq_true hbelow).1⟩
  · cases h
    exact .inr rfl
  · rename_i hbelow _
    split at h
    · cases h
      exact .inl ⟨rfl, (of_decide_eq_true hbelow).1⟩
    · cases h
      exact .inr rfl

/-- A point that is taken from a grid is at most one step from the magnitude. -/
theorem closest_spec (h : closest tie b grid = some d) :
    d.exponent = grid ∧ 0 < d.digits ∧ d.nearest = b ∧
      |d.value * unitsInOne - units b| ≤ 10 ^ grid * unitsInOne := by
  obtain ⟨hpoint, hnearest⟩ := exists_of_closest h
  obtain ⟨hle, hlt⟩ := gridPoint_spec (2 * units b) grid
  have hstep : (0 : ℚ) < 10 ^ grid * unitsInOne := by rw [unitsInOne_eq]; positivity
  push_cast at hle hlt
  rcases hpoint with ⟨rfl, hdigits⟩ | rfl
  · refine ⟨rfl, Nat.pos_of_ne_zero hdigits, hnearest, abs_le.mpr ⟨?_, ?_⟩⟩
    · simp only [Decimal.value]
      linarith
    · simp only [Decimal.value]
      linarith
  · refine ⟨rfl, Nat.succ_pos _, hnearest, abs_le.mpr ⟨?_, ?_⟩⟩
    · simp only [Decimal.value]
      push_cast
      linarith
    · simp only [Decimal.value]
      push_cast
      linarith

/-- On a fine grid, the point above a magnitude reads back as it. -/
theorem closest_ne_none (hpos : 0 < b) (hb : b < infinityBits) (hgrid : grid < 39)
    (hfine : (10 ^ grid * unitsInOne : ℚ) * 2 < 2 ^ shift b) : closest tie b grid ≠ none := by
  obtain ⟨hle, hlt⟩ := gridPoint_spec (2 * units b) grid
  generalize habove : (⟨gridPoint (2 * units b) grid + 1, grid⟩ : Decimal) = above
  have hvalue : above.value * unitsInOne =
      (gridPoint (2 * units b) grid + 1) * 10 ^ grid * unitsInOne := by
    rw [← habove, Decimal.value]
    push_cast
    rfl
  push_cast at hle hlt
  have hgreater : (units b : ℚ) < above.value * unitsInOne := by linarith
  have hless : above.value * unitsInOne < midpoint b := by
    have hmidpoint : midpoint b = units b + 2 ^ shift b / 2 := by
      rw [midpoint_eq, units_eq_kept]
      push_cast
      ring
    linarith
  have hread : above.nearest = b := by
    have hunits : (1 : ℚ) ≤ units b := by exact_mod_cast units_pos hpos
    rw [← Decimal.nearest_eq (by rw [← habove]; exact hgrid) (by linarith)]
    refine nearest_eq_of_between above.den_pos hb ?_ ?_
    · rintro j rfl
      rw [above.quotient_num_den]
      exact (midpoint_lt_units_succ j).trans hgreater
    · rw [above.quotient_num_den]
      exact hless
  unfold closest
  simp only [habove, hread, decide_true]
  split
  · rename_i htrue
    cases htrue
  · nofun
  · nofun
  · split
    · nofun
    · nofun

/-! ### The first grid with such a point -/

theorem firstReadable_spec (n : Nat) (grid : Int) (h : closest tie b (grid - n) ≠ none) :
    ∃ g, grid - n ≤ g ∧ g ≤ grid ∧ closest tie b g = some (firstReadable tie b (n + 1) grid) := by
  induction n generalizing grid with
  | zero =>
    obtain ⟨d, hd⟩ := Option.ne_none_iff_exists'.mp h
    rw [Nat.cast_zero, Int.sub_zero] at hd ⊢
    refine ⟨grid, le_refl _, le_refl _, ?_⟩
    rw [firstReadable, hd]
    rfl
  | succ n ih =>
    cases hclosest : closest tie b grid with
    | some d =>
      refine ⟨grid, by omega, le_refl _, ?_⟩
      rw [firstReadable, hclosest]
      rfl
    | none =>
      have hnext : grid - 1 - n = grid - (n + 1 : Nat) := by omega
      obtain ⟨g, hlow, hhigh, hg⟩ := ih (grid - 1) (hnext ▸ h)
      refine ⟨g, hnext ▸ hlow, by omega, ?_⟩
      rw [firstReadable, hclosest]
      exact hg

/-- The number of digits of a magnitude that is lifted above one tells its power of ten. -/
theorem places_spec (hpos : 0 < b) (hb : b < infinityBits) {places : Nat}
    (h : places = (Nat.toDigits 10 (units b * Nat.pow 10 45 / unitsInOne)).length) :
    1 ≤ places ∧ places ≤ 84 ∧ (10 ^ ((places : Int) - 46) * unitsInOne : ℚ) ≤ units b ∧
      (units b : ℚ) < 10 ^ ((places : Int) - 45) * unitsInOne := by
  have hunit : 0 < unitsInOne := Nat.two_pow_pos _
  have hfirst : 0 < places := h ▸ Nat.length_toDigits_pos
  -- Lifted so far, even the least magnitude is above one.
  have hlifted : 1 ≤ units b * 10 ^ 45 / unitsInOne := by
    rw [Nat.le_div_iff_mul_le hunit, Nat.one_mul]
    exact (show unitsInOne ≤ 10 ^ 45 by decide).trans (Nat.le_mul_of_pos_left _ (units_pos hpos))
  have hlow : 10 ^ (places - 1) * unitsInOne ≤ units b * 10 ^ 45 := by
    rw [← Nat.le_div_iff_mul_le hunit]
    rcases Nat.eq_zero_or_pos (places - 1) with hzero | hmany
    · rwa [hzero, Nat.pow_zero]
    · rw [← Nat.not_lt, ← Nat.length_toDigits_le_iff (by decide) hmany]
      change ¬ (Nat.toDigits 10 (units b * Nat.pow 10 45 / unitsInOne)).length ≤ places - 1
      omega
  have hhigh : units b * 10 ^ 45 < 10 ^ places * unitsInOne := by
    rw [← Nat.div_lt_iff_lt_mul hunit]
    exact (Nat.length_toDigits_le_iff (by decide) hfirst).mp h.ge
  have hlast : places - 1 < 84 := by
    have hunits : units b < units infinityBits := units_strictMono hb
    rw [← Nat.pow_lt_pow_iff_right (a := 10) (by decide)]
    refine lt_of_mul_lt_mul_right (a := unitsInOne) ?_ (Nat.zero_le _)
    calc 10 ^ (places - 1) * unitsInOne ≤ units b * 10 ^ 45 := hlow
      _ ≤ units infinityBits * 10 ^ 45 := Nat.mul_le_mul_right _ hunits.le
      _ < 10 ^ 84 * unitsInOne := by decide
  have hten : (0 : ℚ) < 10 ^ 45 := by positivity
  refine ⟨hfirst, by omega, ?_, ?_⟩
  · have hexponent : (places : Int) - 46 = (places - 1 : Nat) - (45 : Nat) := by omega
    rw [hexponent, zpow_sub₀ (by norm_num), zpow_natCast, zpow_natCast, div_mul_eq_mul_div,
      div_le_iff₀ hten]
    exact_mod_cast hlow
  · have hexponent : (places : Int) - 45 = places - (45 : Nat) := rfl
    rw [hexponent, zpow_sub₀ (by norm_num), zpow_natCast, zpow_natCast, div_mul_eq_mul_div,
      lt_div_iff₀ hten]
    exact_mod_cast hhigh

/-- **The shortest digits are a point next to the magnitude on some grid.**  They are few, and
their power of ten is moderate. -/
theorem shortest_spec (tie : Tie) (hpos : 0 < b) (hb : b < infinityBits) :
    0 < (shortest tie b).digits ∧ (shortest tie b).digits ≤ 10 ^ 10 + 1 ∧
      |(shortest tie b).exponent| ≤ 60 ∧ (shortest tie b).nearest = b ∧
      |(shortest tie b).value * unitsInOne - units b| ≤
        10 ^ (shortest tie b).exponent * unitsInOne := by
  generalize hplaces : (Nat.toDigits 10 (units b * Nat.pow 10 45 / unitsInOne)).length = places
  obtain ⟨hfirst, hlast, hlow, hhigh⟩ := places_spec hpos hb hplaces.symm
  have hshortest : shortest tie b = firstReadable tie b 11 (places - 45) := by
    rw [shortest, if_neg hpos.ne', ← hplaces]
  have hunit : (0 : ℚ) < unitsInOne := by rw [unitsInOne_eq]; positivity
  -- The last grid has a billion points below the magnitude, which has only 24 bits.
  have hfine : (10 ^ ((places - 45 : Int) - (10 : Nat)) * unitsInOne : ℚ) * 2 < 2 ^ shift b := by
    have hexponent : (places - 45 : Int) - (10 : Nat) = (places - 46 : Int) + (-9 : Int) := by omega
    have hkept : (units b : ℚ) < 2 ^ 24 * 2 ^ shift b := by
      have hlt : units b < 2 ^ 24 * 2 ^ shift b := by
        rw [units_eq_kept]
        exact Nat.mul_lt_mul_of_pos_right (kept_lt b) (Nat.two_pow_pos _)
      exact_mod_cast hlt
    have hshift : (0 : ℚ) < 2 ^ shift b := by positivity
    rw [hexponent, zpow_add₀ (by norm_num)]
    norm_num
    linarith
  obtain ⟨g, hg, hg', hclosest⟩ := firstReadable_spec 10 (places - 45)
    (closest_ne_none hpos hb (by omega) hfine)
  rw [← hshortest] at hclosest
  obtain ⟨hexponent, hdigits, hnearest, hdistance⟩ := closest_spec hclosest
  refine ⟨hdigits, ?_, ?_, hnearest, by rw [hexponent]; exact hdistance⟩
  · have hpoint : (0 : ℚ) < 10 ^ g := by positivity
    have hsteps : (10 : ℚ) ^ (places - 45 : Int) ≤ 10 ^ 10 * 10 ^ g := by
      rw [← zpow_natCast, ← zpow_add₀ (by norm_num)]
      exact zpow_le_zpow_right₀ (by norm_num) (by omega)
    have hvalue : ((shortest tie b).digits * 10 ^ g : ℚ) * unitsInOne ≤
        (10 ^ 10 + 1) * 10 ^ g * unitsInOne := by
      have hbound := (abs_le.mp hdistance).2
      have hstart := mul_le_mul_of_nonneg_right hsteps hunit.le
      rw [Decimal.value, hexponent] at hbound
      linarith
    have hcancel := le_of_mul_le_mul_right (le_of_mul_le_mul_right hvalue hunit) hpoint
    exact_mod_cast hcancel
  · rw [hexponent, abs_le]
    omega

end GrammarArt.Binary32
