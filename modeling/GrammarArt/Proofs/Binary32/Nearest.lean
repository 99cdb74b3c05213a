import GrammarArt.Proofs.Binary32.Decimal

/-! # Where rounding turns

A quotient is read as a magnitude `b` exactly if it lies between two midpoints, the one between
`b` and the magnitude below it and the one between `b` and the magnitude above it
(`midpoint_of_nearest`, `nearest_eq_of_between`).  Which way a midpoint itself goes is not said
here, only that it is the same way for all quotients of one value (`nearest_congr`).

Sizes are rational numbers of units.
-/
namespace GrammarArt.Binary32

variable {b num den : Nat}

/-! ### Sizes of neighbors -/

/-- The exponent of a magnitude: its neighbor above is larger by `2 ^ shift` units. -/
def shift (b : Nat) : Nat := b / binade - 1

/-- The up to 24 bits of a magnitude. -/
def kept (b : Nat) : Nat := b - shift b * binade

theorem kept_lt (b : Nat) : kept b < 2 * binade := by
  unfold kept shift binade
  omega

theorem units_eq_kept (b : Nat) : units b = kept b * 2 ^ shift b := by
  unfold units
  split
  · rename_i hb
    have hshift : shift b = 0 := by unfold shift binade at *; omega
    rw [kept, hshift, Nat.zero_mul, Nat.sub_zero, Nat.pow_zero, Nat.mul_one]
  · rename_i hb
    have hkept : kept b = binade + b % binade := by unfold kept shift binade at *; omega
    rw [hkept, Nat.pow_eq, shift]

theorem units_succ (b : Nat) : units (b + 1) = (kept b + 1) * 2 ^ shift b := by
  rw [units_eq_kept]
  by_cases hcarry : kept b + 1 = 2 * binade
  · -- The neighbor above is the first magnitude of the next exponent.
    have hshift : shift (b + 1) = shift b + 1 := by unfold kept shift binade at *; omega
    have hkept : kept (b + 1) = binade := by unfold kept shift binade at *; omega
    rw [hshift, hkept, hcarry, Nat.pow_succ, Nat.mul_comm 2, Nat.mul_assoc, Nat.mul_comm 2]
  · have hshift : shift (b + 1) = shift b := by unfold kept shift binade at *; omega
    have hkept : kept (b + 1) = kept b + 1 := by unfold kept shift binade at *; omega
    rw [hshift, hkept]

theorem units_strictMono : StrictMono units := by
  refine strictMono_nat_of_lt_succ fun b => ?_
  rw [units_succ, units_eq_kept]
  exact Nat.mul_lt_mul_of_pos_right (Nat.lt_succ_self _) (Nat.two_pow_pos _)

/-- The size halfway between a magnitude and the next larger one. -/
def midpoint (b : Nat) : ℚ := (units b + units (b + 1)) / 2

theorem midpoint_eq (b : Nat) : midpoint b = (2 * kept b + 1) * 2 ^ shift b / 2 := by
  rw [midpoint, units_succ, units_eq_kept]
  push_cast
  ring

theorem units_lt_midpoint (b : Nat) : units b < midpoint b := by
  have h : (units b : ℚ) < units (b + 1) := by exact_mod_cast units_strictMono (Nat.lt_succ_self b)
  rw [midpoint]
  linarith

theorem midpoint_lt_units_succ (b : Nat) : midpoint b < units (b + 1) := by
  have h : (units b : ℚ) < units (b + 1) := by exact_mod_cast units_strictMono (Nat.lt_succ_self b)
  rw [midpoint]
  linarith

theorem midpoint_strictMono : StrictMono midpoint :=
  strictMono_nat_of_lt_succ fun b => (midpoint_lt_units_succ b).trans (units_lt_midpoint (b + 1))

/-! ### Rounding -/

/-- A quotient without its last `shift` bits, rounded to the nearer side. -/
def roundedPart (scaled den shift : Nat) : Nat :=
  let kept := scaled / den / 2 ^ shift
  let step := 2 ^ shift * den
  let dropped := 2 * (scaled - kept * step)
  if step < dropped ∨ step = dropped ∧ kept % 2 = 1 then kept + 1 else kept

/-- The leading bits of a number, all but the last of `width + 1` bits. -/
theorem leadingBits (n width : Nat) :
    n / 2 ^ (n.log2 - width) < 2 ^ (width + 1) ∧
      (n.log2 - width = 0 ∨ 2 ^ width ≤ n / 2 ^ (n.log2 - width)) := by
  constructor
  · rw [Nat.div_lt_iff_lt_mul (Nat.two_pow_pos _), ← Nat.pow_add]
    exact Nat.lt_log2_self.trans_le (Nat.pow_le_pow_right (by decide) (by omega))
  · rcases Nat.lt_or_ge width n.log2 with hlt | hge
    · have hne : n ≠ 0 := by
        rintro rfl
        exact absurd hlt (Nat.not_lt_zero _)
      refine .inr ((Nat.le_div_iff_mul_le (Nat.two_pow_pos _)).mpr ?_)
      rw [← Nat.pow_add, Nat.add_sub_cancel' hlt.le]
      exact Nat.log2_self_le hne
    · exact .inl (Nat.sub_eq_zero_of_le hge)

/-- What is kept of a quotient is at most one step below it, and the nearer side is taken. -/
theorem roundedPart_spec (scaled : Nat) {den : Nat} (hden : 0 < den) (shift : Nat) :
    ∃ kept, kept = scaled / den / 2 ^ shift ∧ kept * (2 ^ shift * den) ≤ scaled ∧
      scaled < (kept + 1) * (2 ^ shift * den) ∧
      (roundedPart scaled den shift = kept ∧
          2 * scaled ≤ (2 * kept + 1) * (2 ^ shift * den) ∨
        roundedPart scaled den shift = kept + 1 ∧
          (2 * kept + 1) * (2 ^ shift * den) ≤ 2 * scaled) := by
  have hstep : 0 < 2 ^ shift * den := Nat.mul_pos (Nat.two_pow_pos _) hden
  have hquotient : scaled / den / 2 ^ shift = scaled / (2 ^ shift * den) := by
    rw [Nat.div_div_eq_div_mul, Nat.mul_comm]
  have hle := Nat.div_mul_le_self scaled (2 ^ shift * den)
  have hlt := Nat.lt_div_mul_add (a := scaled) hstep
  rw [← hquotient] at hle hlt
  refine ⟨_, rfl, hle, by rw [Nat.add_mul, Nat.one_mul]; exact hlt, ?_⟩
  have hhalf : (2 * (scaled / den / 2 ^ shift) + 1) * (2 ^ shift * den) =
      2 * (scaled / den / 2 ^ shift * (2 ^ shift * den)) + 2 ^ shift * den := by ring
  unfold roundedPart
  simp only
  rw [hhalf]
  split
  · exact .inr ⟨rfl, by omega⟩
  · exact .inl ⟨rfl, by omega⟩

/-- A quotient in units. -/
def quotient (num den : Nat) : ℚ := num * unitsInOne / den

theorem shift_of_bits {k s : Nat} (hk : k < 2 * binade) (hs : s = 0 ∨ binade ≤ k) :
    shift (k + s * binade) = s ∧ kept (k + s * binade) = k := by
  unfold kept shift binade at *
  omega

/-- Rounding goes to one of the two neighbors, by the side of their midpoint. -/
theorem nearest_spec (num : Nat) (hden : 0 < den) :
    ∃ b r, nearest num den = min infinityBits r ∧
      units b ≤ quotient num den ∧ quotient num den < units (b + 1) ∧
      (r = b ∧ quotient num den ≤ midpoint b ∨ r = b + 1 ∧ midpoint b ≤ quotient num den) := by
  obtain ⟨k, hk, hle, hlt, hround⟩ := roundedPart_spec (num * unitsInOne) hden
    ((num * unitsInOne / den).log2 - 23)
  have hbits := leadingBits (num * unitsInOne / den) 23
  generalize hs : (num * unitsInOne / den).log2 - 23 = s at *
  rw [← hk] at hbits
  obtain ⟨hshift, hkept⟩ := shift_of_bits (k := k) (s := s) hbits.1 hbits.2
  have hden' : (0 : ℚ) < den := by exact_mod_cast hden
  refine ⟨k + s * binade, roundedPart (num * unitsInOne) den s + s * binade, by rw [← hs]; rfl,
    ?_, ?_, ?_⟩
  · rw [units_eq_kept, hshift, hkept, quotient, le_div_iff₀ hden']
    exact_mod_cast (Nat.mul_assoc _ _ _).trans_le hle
  · rw [units_succ, hshift, hkept, quotient, div_lt_iff₀ hden']
    exact_mod_cast hlt.trans_eq (Nat.mul_assoc _ _ _).symm
  · have hmidpoint : midpoint (k + s * binade) * (2 * den) =
        ((2 * k + 1) * (2 ^ s * den) : ℕ) := by
      rw [midpoint_eq, hshift, hkept]
      push_cast
      ring
    have hquotient : quotient num den * (2 * den) = (2 * (num * unitsInOne) : ℕ) := by
      rw [quotient]
      push_cast
      field_simp
    have hpos : (0 : ℚ) < 2 * den := by linarith
    refine hround.imp (fun h => ⟨by rw [h.1], ?_⟩) (fun h => ⟨by rw [h.1]; ring, ?_⟩)
    · rw [← mul_le_mul_iff_of_pos_right hpos, hmidpoint, hquotient]
      exact_mod_cast h.2
    · rw [← mul_le_mul_iff_of_pos_right hpos, hmidpoint, hquotient]
      exact_mod_cast h.2

/-- What is read as a magnitude lies between the midpoints next to it. -/
theorem midpoint_of_nearest (hden : 0 < den) (hb : b < infinityBits) (h : nearest num den = b) :
    (∀ j, j + 1 = b → midpoint j ≤ quotient num den) ∧ quotient num den ≤ midpoint b := by
  obtain ⟨below, r, hnearest, hle, hlt, hside⟩ := nearest_spec num hden
  have hr : r = b := by omega
  rcases hside with ⟨rfl, hside⟩ | ⟨rfl, hside⟩
  · subst hr
    refine ⟨?_, hside⟩
    rintro j rfl
    exact (midpoint_lt_units_succ j).le.trans hle
  · subst hr
    refine ⟨fun j hj => ?_, hlt.le.trans (units_lt_midpoint _).le⟩
    cases Nat.succ.inj hj
    exact hside

/-- **What lies between the midpoints next to a magnitude is read as it.** -/
theorem nearest_eq_of_between (hden : 0 < den) (hb : b < infinityBits)
    (hlow : ∀ j, j + 1 = b → midpoint j < quotient num den)
    (hhigh : quotient num den < midpoint b) : nearest num den = b := by
  obtain ⟨below, r, hnearest, hle, hlt, hside⟩ := nearest_spec num hden
  have hr : r = b := by
    rcases Nat.lt_trichotomy r b with hless | rfl | hgreater
    · -- Everything up to the midpoint above `r` is too small.
      obtain ⟨j, rfl⟩ : ∃ j, b = j + 1 := ⟨b - 1, by omega⟩
      have hquotient : quotient num den ≤ midpoint r := by
        rcases hside with ⟨rfl, hside⟩ | ⟨rfl, hside⟩
        · exact hside
        · exact hlt.le.trans (units_lt_midpoint _).le
      have hmono := midpoint_strictMono.monotone (Nat.le_of_lt_succ hless)
      linarith [hlow j rfl]
    · rfl
    · obtain ⟨j, rfl⟩ : ∃ j, r = j + 1 := ⟨r - 1, by omega⟩
      have hquotient : midpoint j ≤ quotient num den := by
        rcases hside with ⟨rfl, hside⟩ | ⟨h, hside⟩
        · exact (midpoint_lt_units_succ j).le.trans hle
        · cases Nat.succ.inj h
          exact hside
      have hmono := midpoint_strictMono.monotone (Nat.le_of_lt_succ hgreater)
      linarith
  omega

/-- Only the value of a quotient matters. -/
theorem nearest_congr {num' den' : Nat} (hden : 0 < den) (hden' : 0 < den')
    (h : (num : ℚ) / den = num' / den') : nearest num den = nearest num' den' := by
  have hcross : num * den' = num' * den := by
    rw [div_eq_div_iff (by positivity) (by positivity)] at h
    exact_mod_cast h
  rw [← nearest_mul_left hden' num den, ← nearest_mul_left hden num' den', Nat.mul_comm den' num,
    hcross, Nat.mul_comm num' den, Nat.mul_comm den' den]

end GrammarArt.Binary32
