import GrammarArt.Json.Number
import GrammarArt.Proofs.Binary64.Shortest
import GrammarArt.Proofs.Json.Reading

/-! # Numbers that are read back

What is written of a natural number and of a finite single is a numeral, and it is read back as the
number it was (`natural?_ofNat`, `float32?_ofFloat32`).  The numeral of a single always has a point
or an exponent, so it is not read as a whole number but by way of double precision; its digits are
few enough for all of them to be used, and the magnitudes for which the small error of this way
might do harm are read back one by one.
-/
namespace GrammarArt.Json

open Binary32

variable {b : Nat}

/-! ### Natural numbers -/

theorem naturalOf?_toDigits (n : Nat) : naturalOf? (Nat.toDigits 10 n) = some n := by
  have hall : (Nat.toDigits 10 n).all Char.isDigit = true :=
    List.all_eq_true.mpr (isDigits_toDigits n)
  rw [naturalOf?, if_pos ⟨Nat.toDigits_ne_nil, hall⟩, digitsValue_toDigits]

/-- A natural number is read back if it is below the bound. -/
theorem natural?_ofNat {n bound : Nat} (h : n < bound) : natural? bound (ofNat n) = some n := by
  rw [ofNat, natural?, naturalOf?_toDigits, Option.bind_some, if_pos h]

theorem wellFormed_ofNat (n : Nat) : WellFormed (ofNat n) := .number (isNumeral_toDigits n)

/-! ### Finite singles -/

theorem nearest_zero (e : Int) : Decimal.nearest ⟨0, e⟩ = 0 := by
  cases e with
  | ofNat e => rfl
  | negSucc e =>
    have hexact : Binary32.nearest 0 (10 ^ (e + 1)) = 0 :=
      nearest_of_exact (Nat.pow_pos (by decide)) (Nat.zero_le _)
        ((Nat.zero_mul _).trans (Nat.zero_mul _).symm)
    show (if Nat.log2 0 + 151 ≤ 3 * (e + 1) then 0 else Binary32.nearest 0 (10 ^ (e + 1))) = 0
    rw [hexact, ite_self]

/-- The digits of a number that is not zero do not begin with zero. -/
theorem head?_toDigits_shortest (tie : Tie) (hpos : 0 < b) (hb : b < infinityBits) :
    (Nat.toDigits 10 (shortest tie b).digits).head? ≠ some '0' := by
  intro hzero
  have hread := nearest_digitsValue_shortest tie hb
  rw [(isWhole_toDigits _).zero hzero] at hread
  exact hpos.ne ((nearest_zero _).symm.trans hread)

/-- Zeros are only written up to the point and one behind it, and at most 13 digits stand before
it. -/
theorem digits_mul_pow_lt {zeros : Nat} (hfew : (shortest wire.tie b).digits < 2 ^ 53)
    (hplace : wire.positional (pointPlace wire.tie b) = true)
    (hzeros : zeros ≤ ((shortest wire.tie b).exponent + 1).toNat) :
    (shortest wire.tie b).digits * 10 ^ zeros < 2 ^ 53 := by
  rcases Nat.eq_zero_or_pos zeros with rfl | hpos
  · rwa [Nat.pow_zero, Nat.mul_one]
  · have hlast := (of_decide_eq_true hplace).2
    unfold pointPlace at hlast
    calc (shortest wire.tie b).digits * 10 ^ zeros
        < 10 ^ (Nat.toDigits 10 (shortest wire.tie b).digits).length * 10 ^ zeros :=
          Nat.mul_lt_mul_of_pos_right ((Nat.length_toDigits_le_iff (by decide)
            Nat.length_toDigits_pos).mp le_rfl) (Nat.pow_pos (by decide))
      _ ≤ 10 ^ 14 := by
          rw [← Nat.pow_add]
          exact Nat.pow_le_pow_right (by decide) (by omega)
      _ < 2 ^ 53 := by decide

/-- **What is written of a magnitude is a numeral with a point or an exponent, for the decimal
with the fewest digits**, but for some zeros at its end. -/
theorem exists_wire_numeral (hb : b < infinityBits) :
    ∃ n : Numeral, IsWhole n.whole ∧ IsDigits n.fraction ∧
      (∃ zeros : Nat, n.decimal = ⟨(shortest wire.tie b).digits * 10 ^ zeros,
          (shortest wire.tie b).exponent - zeros⟩ ∧
        (shortest wire.tie b).digits * 10 ^ zeros < 2 ^ 53) ∧
      (magnitudeText wire b = plainText n.whole n.fraction ∧ n.fraction ≠ [] ∧ n.exponent = 0 ∨
        magnitudeText wire b = scientificText n) := by
  rcases Nat.eq_zero_or_pos b with rfl | hpos
  · exact ⟨⟨['0'], ['0'], 0⟩, ⟨isDigits_zeros 1, by decide, fun _ => rfl⟩, isDigits_zeros 1,
      ⟨1, by decide, by decide⟩, .inl ⟨by decide, by decide, rfl⟩⟩
  have hfirst := head?_toDigits_shortest wire.tie hpos hb
  have hread := nearest_digitsValue_shortest wire.tie hb
  have hfew : (shortest wire.tie b).digits < 2 ^ 53 :=
    (shortest_spec wire.tie hpos hb).2.1.trans_lt (by decide)
  cases hplace : wire.positional (pointPlace wire.tie b) with
  | true =>
    obtain ⟨whole, fraction, htext, hpoint, hne, hdigits, hfraction, hhead,
        ⟨zeros, hzeros, hdecimal⟩, -⟩ :=
      exists_positional_numeral wire.keepsPoint Nat.toDigits_ne_nil (isDigits_toDigits _)
        (hread.trans_lt hb)
    rw [digitsValue_toDigits] at hdecimal
    refine ⟨⟨whole, fraction, 0⟩, ⟨hdigits, hne, fun hzero => ?_⟩, hfraction,
      ⟨zeros, hdecimal, digits_mul_pow_lt hfew hplace hzeros⟩, .inl ⟨?_, hpoint rfl, rfl⟩⟩
    · rcases hhead with hwhole | hhead
      · exact hwhole
      · exact absurd (hhead.symm.trans hzero) hfirst
    · rw [← htext]
      exact if_pos hplace
  | false =>
    obtain ⟨n, htext, hne, hdigits, hfraction, hhead, hdecimal⟩ := exists_scientific_numeral
      Nat.toDigits_ne_nil (isDigits_toDigits (shortest wire.tie b).digits)
    refine ⟨n, ⟨hdigits, hne, fun hzero => absurd (hhead.symm.trans hzero) hfirst⟩, hfraction,
      ⟨0, ?_, by rwa [Nat.pow_zero, Nat.mul_one]⟩, .inr ?_⟩
    · rw [hdecimal, digitsValue_toDigits, Nat.pow_zero, Nat.mul_one, Nat.cast_zero, Int.sub_zero]
    · rw [← htext]
      exact if_neg (by rw [← pointPlace, hplace]; exact Bool.false_ne_true)

theorem isUnsigned_magnitudeText (hb : b < infinityBits) : IsUnsigned (magnitudeText wire b) := by
  obtain ⟨n, hwhole, hfraction, -, htext⟩ := exists_wire_numeral hb
  rcases htext with ⟨htext, -, -⟩ | htext
  · exact htext ▸ isUnsigned_plainText hwhole hfraction
  · exact htext ▸ isUnsigned_scientificText hwhole hfraction

/-! ### Numerals that fit 64 bits -/

theorem le_ofDigitChars (n : Nat) (ds : List Char) : n ≤ Nat.ofDigitChars 10 ds n := by
  induction ds generalizing n with
  | nil => exact le_rfl
  | cons d ds ih =>
    rw [Nat.ofDigitChars_cons]
    exact le_trans (by omega) (ih _)

/-- Digits whose number fits 64 bits are all used. -/
theorem extend_eq {n : Nat} {ds : List Char} (h : Nat.ofDigitChars 10 ds n < UInt64.size) :
    extend n ds = (Nat.ofDigitChars 10 ds n, 0) := by
  induction ds generalizing n with
  | nil => rfl
  | cons d ds ih =>
    rw [Nat.ofDigitChars_cons] at h ⊢
    rw [extend, if_pos ((le_ofDigitChars _ ds).trans_lt h), ih h]

theorem magnitudeOf?_eq {n : Numeral} (h : n.decimal.digits < UInt64.size) :
    magnitudeOf? n = Binary64.magnitude? n.decimal.digits n.decimal.exponent := by
  have hsplit : n.decimal.digits =
      Nat.ofDigitChars 10 n.fraction (Nat.ofDigitChars 10 n.whole 0) :=
    Nat.ofDigitChars_append 0
  rw [hsplit] at h ⊢
  have hwhole := extend_eq ((le_ofDigitChars _ n.fraction).trans_lt h)
  rw [magnitudeOf?, hwhole]
  simp only
  rw [extend_eq h]
  simp only [Numeral.decimal, Nat.cast_zero, Int.add_zero, Nat.sub_zero]

/-- Digits among which something else stands are no natural number. -/
theorem naturalOf?_eq_none {cs : List Char} {c : Char} (hmem : c ∈ cs)
    (hc : c.isDigit = false) : naturalOf? cs = none := by
  refine if_neg fun h => ?_
  have hdigit := List.all_eq_true.mp h.2 c hmem
  rw [hc] at hdigit
  cases hdigit

/-! ### Finite singles that are read back -/

/-- The magnitudes next to the listed midpoints, one by one. -/
theorem magnitudeOf?_of_close : ∀ j ∈ closeMidpoints, ∀ b ∈ [j, j + 1],
    (Numeral.ofText? (magnitudeText wire b)).bind magnitudeOf? = some b := by decide +kernel

/-- **What is written of a magnitude is read back as it by way of double precision.** -/
theorem unsigned32?_magnitudeText (hb : b < infinityBits) (most : Nat) (zeroIsWhole : Bool) :
    unsigned32? most zeroIsWhole (magnitudeText wire b) = some b := by
  obtain ⟨n, hwhole, hfraction, ⟨zeros, hdecimal, hsmall⟩, htext⟩ := exists_wire_numeral hb
  have hnumeral : Numeral.ofText? (magnitudeText wire b) = some n ∧
      naturalOf? (magnitudeText wire b) = none := by
    rcases htext with ⟨htext, hpoint, hexponent⟩ | htext
    · rw [htext, ofText?_plainText hwhole.ne_nil hwhole.digits hfraction, ← hexponent]
      exact ⟨rfl, naturalOf?_eq_none (c := '.') (by simp [plainText, hpoint]) rfl⟩
    · rw [htext, ofText?_scientificText hwhole.ne_nil hwhole.digits hfraction]
      exact ⟨rfl, naturalOf?_eq_none (c := 'e') (by simp [scientificText]) rfl⟩
  have hread : unsigned32? most zeroIsWhole (magnitudeText wire b) =
      (Numeral.ofText? (magnitudeText wire b)).bind magnitudeOf? := by
    rw [unsigned32?, hnumeral.2]
  rw [hread]
  by_cases hclose : ∃ j ∈ closeMidpoints, b ∈ [j, j + 1]
  · obtain ⟨j, hj, hmem⟩ := hclose
    exact magnitudeOf?_of_close j hj b hmem
  rcases Nat.eq_zero_or_pos b with rfl | hpos
  · decide
  have hmagnitude := Binary64.magnitude?_shortest wire.tie hpos hb
    (fun hmem => hclose ⟨b, hmem, List.mem_cons_self⟩)
    (fun j hj hmem => hclose ⟨j, hmem, by simp [hj]⟩) hsmall
  have hfits : n.decimal.digits < UInt64.size := by
    rw [hdecimal]
    exact hsmall.trans (by decide)
  rw [hnumeral.1, Option.bind_some, magnitudeOf?_eq hfits, hdecimal, hmagnitude]

theorem ofFloat32_eq {v : Float32} (h : v.isFinite = true) : ofFloat32 v =
    number (if negative v then '-' :: magnitudeText wire (magnitude v)
      else magnitudeText wire (magnitude v)) := by
  rw [ofFloat32, if_pos h]
  simp only [print, isNaN_eq_false h, isInf_eq_false h, Bool.false_eq_true, if_false,
    String.toList_ofList]

/-- **A finite single is read back from the number that is written of it.** -/
theorem float32?_ofFloat32 {v : Float32} (h : v.isFinite = true) :
    (ofFloat32 v).float32? = some v := by
  have hread := unsigned32?_magnitudeText (magnitude_lt h)
  have hvalue := ofMagnitude_magnitude h
  rw [ofFloat32_eq h]
  cases hsign : negative v with
  | true =>
    show (unsigned32? _ _ (magnitudeText wire (magnitude v))).map _ = _
    rw [hread, Option.map_some, ← hsign, hvalue]
  | false =>
    have hfirst (cs : List Char) : magnitudeText wire (magnitude v) ≠ '-' :: cs := by
      intro hminus
      obtain ⟨c, hc, hdigit⟩ := (isUnsigned_magnitudeText (magnitude_lt h)).begins
      rw [hminus] at hc
      cases hc
      cases hdigit
    rw [if_neg Bool.false_ne_true, float32?]
    · rw [hread, Option.map_some, ← hsign, hvalue]
    · exact hfirst

theorem wellFormed_ofFloat32 (v : Float32) : WellFormed (ofFloat32 v) := by
  by_cases h : v.isFinite = true
  · have htext := isUnsigned_magnitudeText (magnitude_lt h)
    rw [ofFloat32_eq h]
    split
    · exact .number htext.isNumeral_neg
    · exact .number htext.isNumeral
  · rw [ofFloat32, if_neg h]
    exact .null

end GrammarArt.Json
