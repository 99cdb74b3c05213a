import GrammarArt.Binary32.Basic
import Mathlib

/-! # Numbers and their bits

A number is its sign bit and its magnitude bits (`ofMagnitude_magnitude`), it is finite if
its magnitude is below that of infinity (`isFinite_eq`), and negation turns the sign bit
over (`neg_ofMagnitude`).

All three are read off the two conversions that every operation on singles is made of: bits
are unpacked into a sign, a mantissa and an exponent, and packed again.  Unless all exponent
bits are set, packing gives back the bits that were unpacked (`pack_unpack`).
-/
namespace GrammarArt.Binary32

open Float.Model (Format UnpackedFloat)
open Float.Model.UnpackedFloat (Sign packComponents unpackSign unpackExponent unpackMantissa)

/-- The bits of a single. -/
abbrev Bits : Type := BitVec Format.binary32.numBits

/-! ### The three fields -/

variable (b : Bits)

theorem toNat_unpackSign : (unpackSign b).toNat = b.toNat / signBit := by
  have h : b.toNat < 4294967296 := b.isLt
  simp only [unpackSign, BitVec.toNat_cast, BitVec.extractLsb_toNat, Nat.shiftRight_eq_div_pow,
    signBit]
  omega

theorem toNat_unpackExponent : (unpackExponent b).toNat = b.toNat / binade % 256 := by
  simp only [unpackExponent, BitVec.toNat_cast, BitVec.extractLsb_toNat,
    Nat.shiftRight_eq_div_pow, binade]

theorem toNat_unpackMantissa : (unpackMantissa b).toNat = b.toNat % binade := by
  simp only [unpackMantissa, BitVec.toNat_cast, BitVec.extractLsb_toNat,
    Nat.shiftRight_eq_div_pow, binade]
  omega

theorem toBitVec_ofBitVec (s : BitVec 1) : (Sign.ofBitVec s).toBitVec = s := by
  unfold Sign.ofBitVec
  split
  · rename_i hzero
    exact hzero.symm
  · rename_i hone
    apply BitVec.eq_of_toNat_eq
    have hne : s.toNat ≠ 0 := fun h => hone (BitVec.eq_of_toNat_eq h)
    show 1 = s.toNat
    omega

/-- Bits are put together of their fields. -/
theorem packComponents_unpack : packComponents Format.binary32 (Sign.ofBitVec (unpackSign b))
    (unpackExponent b) (unpackMantissa b) = b := by
  apply BitVec.eq_of_toNat_eq
  rw [packComponents, toBitVec_ofBitVec, BitVec.toNat_append, BitVec.toNat_append,
    ← Nat.shiftLeft_add_eq_or_of_lt (unpackExponent b).isLt,
    ← Nat.shiftLeft_add_eq_or_of_lt (unpackMantissa b).isLt, toNat_unpackSign,
    toNat_unpackExponent, toNat_unpackMantissa, Nat.shiftLeft_eq, Nat.shiftLeft_eq]
  simp only [signBit, binade]
  have h : b.toNat < 4294967296 := b.isLt
  omega

theorem toNat_one_append (m : BitVec 23) : (1#1 ++ m).toNat = binade + m.toNat := by
  rw [BitVec.toNat_append, ← Nat.shiftLeft_add_eq_or_of_lt m.isLt]
  rfl

/-! ### Packing what was unpacked -/

variable {b}

theorem log2_add_binade {m : Nat} (hm : m < binade) : (binade + m).log2 = 23 := by
  unfold binade at *
  rw [Nat.log2_eq_iff (by omega)]
  omega

/-- Bits are those of the fields that were found in them. -/
theorem packComponents_eq {e : BitVec 8} {m : BitVec 23} (he : unpackExponent b = e)
    (hm : unpackMantissa b = m) :
    packComponents Format.binary32 (Sign.ofBitVec (unpackSign b)) e m = b := by
  rw [← he, ← hm]
  exact packComponents_unpack b

theorem pack_unpack (h : unpackExponent b ≠ -1#8) :
    UnpackedFloat.pack Format.binary32 (UnpackedFloat.unpack Format.binary32 b) = b := by
  have hm : (unpackMantissa b).toNat < binade := (unpackMantissa b).isLt
  rw [UnpackedFloat.unpack, if_neg h]
  by_cases hexp : unpackExponent b = 0#8
  · rw [if_pos hexp]
    by_cases hman : unpackMantissa b = 0#23
    · rw [dif_pos hman]
      exact packComponents_eq hexp hman
    · -- The mantissa of a subnormal number is too short for the implicit bit.
      have hlog : (unpackMantissa b).toNat.log2 + 1 ≠ Format.binary32.mantissaBits := by
        intro (h24 : (unpackMantissa b).toNat.log2 + 1 = 24)
        have hne : (unpackMantissa b).toNat ≠ 0 := fun h0 => hman (BitVec.eq_of_toNat_eq h0)
        have hle := Nat.log2_self_le hne
        rw [Nat.succ.inj h24] at hle
        exact absurd hm (Nat.not_lt.mpr hle)
      rw [dif_neg hman, UnpackedFloat.pack, hexp]
      simp only
      rw [if_neg (by decide), if_neg hlog, BitVec.ofNat_toNat, BitVec.setWidth_eq]
      exact packComponents_eq hexp rfl
  · have he : (unpackExponent b).toNat < 255 := by
      have hlt : (unpackExponent b).toNat < 256 := (unpackExponent b).isLt
      have hne : (unpackExponent b).toNat ≠ 255 := fun h255 => h (BitVec.eq_of_toNat_eq h255)
      omega
    have hbiased : (((unpackExponent b).toNat : Int) - (Format.binary32.exponentBias + (23 : Nat))
        + Format.binary32.exponentBias + (23 : Nat)).toNat = (unpackExponent b).toNat := by omega
    have hlog : (binade + (unpackMantissa b).toNat).log2 + 1 = Format.binary32.mantissaBits := by
      rw [log2_add_binade hm]
      rfl
    rw [if_neg hexp, UnpackedFloat.pack]
    simp only [toNat_one_append, hbiased]
    rw [if_neg (by omega), if_pos hlog, BitVec.ofNat_toNat, BitVec.setWidth_eq]
    refine packComponents_eq rfl (BitVec.eq_of_toNat_eq ?_)
    rw [BitVec.toNat_ofNat]
    show _ = (binade + (unpackMantissa b).toNat) % binade
    rw [Nat.add_mod_left, Nat.mod_eq_of_lt hm]

/-! ### Finite numbers -/

variable {v : Float32} {m : Nat}

theorem unpackExponent_ne_iff : unpackExponent b ≠ -1#8 ↔ b.toNat % signBit < infinityBits := by
  have h : b.toNat < 4294967296 := b.isLt
  have hbound : (unpackExponent b).toNat < 256 := (unpackExponent b).isLt
  have hall : unpackExponent b = -1#8 ↔ (unpackExponent b).toNat = 255 :=
    ⟨fun heq => by rw [heq]; rfl, fun heq => BitVec.eq_of_toNat_eq heq⟩
  rw [ne_eq, hall, toNat_unpackExponent]
  simp only [signBit, infinityBits, binade]
  omega

theorem isFinite_unpack : (UnpackedFloat.unpack Format.binary32 b).isFinite =
    decide (unpackExponent b ≠ -1#8) := by
  rw [UnpackedFloat.unpack]
  by_cases h : unpackExponent b = -1#8
  · rw [if_pos h, decide_eq_false (fun hne => hne h)]
    split
    · rfl
    · rfl
  · rw [if_neg h, decide_eq_true h]
    split
    · split
      · rfl
      · rfl
    · rfl

theorem isFinite_eq (v : Float32) : v.isFinite = decide (magnitude v < infinityBits) := by
  show (UnpackedFloat.unpack Format.binary32 v.toBits.toBitVec).isFinite = _
  rw [isFinite_unpack, decide_eq_decide, unpackExponent_ne_iff]
  rfl

theorem magnitude_lt (h : v.isFinite = true) : magnitude v < infinityBits := by
  rwa [isFinite_eq, decide_eq_true_eq] at h

theorem isNaN_eq_false (h : v.isFinite = true) : v.isNaN = false := by
  change (UnpackedFloat.unpack Format.binary32 v.toBits.toBitVec).isFinite = true at h
  show (UnpackedFloat.unpack Format.binary32 v.toBits.toBitVec).isNaN = false
  cases hunpack : UnpackedFloat.unpack Format.binary32 v.toBits.toBitVec with
  | notANumber => simp [hunpack, UnpackedFloat.isFinite] at h
  | _ => rfl

theorem isInf_eq_false (h : v.isFinite = true) : v.isInf = false := by
  change (UnpackedFloat.unpack Format.binary32 v.toBits.toBitVec).isFinite = true at h
  show (UnpackedFloat.unpack Format.binary32 v.toBits.toBitVec).isInf = false
  cases hunpack : UnpackedFloat.unpack Format.binary32 v.toBits.toBitVec with
  | infinity => simp [hunpack, UnpackedFloat.isFinite] at h
  | _ => rfl

theorem isNaN_or_isInf (h : v.isFinite = false) : v.isNaN = true ∨ v.isInf = true := by
  change (UnpackedFloat.unpack Format.binary32 v.toBits.toBitVec).isFinite = false at h
  show (UnpackedFloat.unpack Format.binary32 v.toBits.toBitVec).isNaN = true ∨
    (UnpackedFloat.unpack Format.binary32 v.toBits.toBitVec).isInf = true
  cases hunpack : UnpackedFloat.unpack Format.binary32 v.toBits.toBitVec with
  | notANumber => exact .inl rfl
  | infinity => exact .inr rfl
  | _ => simp [hunpack, UnpackedFloat.isFinite] at h

theorem toBits_inj {v w : Float32} (h : v.toBits = w.toBits) : v = w := by
  obtain ⟨⟨u, hu⟩⟩ := v
  obtain ⟨⟨u', hu'⟩⟩ := w
  cases (show u = u' from h)
  rfl

/-- The bits of a finite number are kept. -/
theorem toBits_ofBits {u : UInt32} (h : u.toNat % signBit < infinityBits) :
    (Float32.ofBits u).toBits = u :=
  congrArg UInt32.ofBitVec (pack_unpack (unpackExponent_ne_iff.mpr h))

theorem ofBits_toBits (h : v.isFinite = true) : Float32.ofBits v.toBits = v :=
  toBits_inj (toBits_ofBits (magnitude_lt h))

/-- **A finite number is its sign and its magnitude.** -/
theorem ofMagnitude_magnitude (h : v.isFinite = true) :
    ofMagnitude (negative v) (magnitude v) = v := by
  have hlt : v.toBits.toNat < 4294967296 := v.toBits.toNat_lt
  have hbits : (if negative v then magnitude v + signBit else magnitude v) = v.toBits.toNat := by
    by_cases hsign : signBit ≤ v.toBits.toNat
    · rw [negative, if_pos (decide_eq_true hsign), magnitude]
      unfold signBit at *
      omega
    · rw [negative, decide_eq_false hsign, if_neg Bool.false_ne_true, magnitude]
      exact Nat.mod_eq_of_lt (Nat.not_le.mp hsign)
  rw [ofMagnitude, hbits, UInt32.ofNat_toNat]
  exact ofBits_toBits h

/-! ### Numbers of a given magnitude -/

theorem toNat_ofMagnitude (sign : Bool) (h : m < infinityBits) :
    (ofMagnitude sign m).toBits.toNat = if sign then m + signBit else m := by
  have hm : m < 2139095040 := h
  have hnat : (UInt32.ofNat (if sign then m + signBit else m)).toNat =
      if sign then m + signBit else m := by
    rw [UInt32.toNat_ofNat_of_lt']
    simp only [signBit, UInt32.size]
    split
    · omega
    · omega
  rw [ofMagnitude, toBits_ofBits]
  · exact hnat
  · rw [hnat]
    simp only [signBit, infinityBits, binade]
    split
    · omega
    · omega

theorem magnitude_ofMagnitude (sign : Bool) (h : m < infinityBits) :
    magnitude (ofMagnitude sign m) = m := by
  have hm : m < 2139095040 := h
  rw [magnitude, toNat_ofMagnitude sign h]
  simp only [signBit]
  split
  · omega
  · omega

theorem isFinite_ofMagnitude (sign : Bool) (h : m < infinityBits) :
    (ofMagnitude sign m).isFinite = true := by
  rw [isFinite_eq, magnitude_ofMagnitude sign h]
  exact decide_eq_true h

/-- Bits that differ in the sign bit alone are those of a number and of its negation. -/
theorem unpack_neg {b c : Bits} (h : c.toNat = b.toNat + signBit) :
    UnpackedFloat.unpack Format.binary32 c = (UnpackedFloat.unpack Format.binary32 b).neg := by
  have hb : b.toNat < 4294967296 := b.isLt
  have hc : c.toNat < 4294967296 := c.isLt
  simp only [signBit] at h
  have hexponent : unpackExponent c = unpackExponent b := by
    apply BitVec.eq_of_toNat_eq
    rw [toNat_unpackExponent, toNat_unpackExponent, h, binade]
    omega
  have hmantissa : unpackMantissa c = unpackMantissa b := by
    apply BitVec.eq_of_toNat_eq
    rw [toNat_unpackMantissa, toNat_unpackMantissa, h, binade]
    omega
  have hsign : unpackSign b = 0#1 := by
    apply BitVec.eq_of_toNat_eq
    rw [toNat_unpackSign, signBit]
    show b.toNat / 2147483648 = 0
    omega
  have hsign' : unpackSign c = 1#1 := by
    apply BitVec.eq_of_toNat_eq
    rw [toNat_unpackSign, signBit]
    show c.toNat / 2147483648 = 1
    omega
  rw [UnpackedFloat.unpack, UnpackedFloat.unpack]
  simp only [hexponent, hmantissa, hsign, hsign']
  split
  · split
    · rfl
    · rfl
  · split
    · split
      · rfl
      · rfl
    · rfl

theorem neg_neg_unpacked (f : UnpackedFloat) : f.neg.neg = f := by
  have hsign : ∀ s : Sign, - -s = s := by
    rintro (_ | _) <;> rfl
  cases f with
  | notANumber => rfl
  | infinity s | zero s | finite s m e hm => simp only [UnpackedFloat.neg, hsign]

theorem unpack_ofMagnitude_not (sign : Bool) (h : m < infinityBits) :
    UnpackedFloat.unpack Format.binary32 (ofMagnitude (!sign) m).toBits.toBitVec =
      (UnpackedFloat.unpack Format.binary32 (ofMagnitude sign m).toBits.toBitVec).neg := by
  have hneg : UnpackedFloat.unpack Format.binary32 (ofMagnitude true m).toBits.toBitVec =
      (UnpackedFloat.unpack Format.binary32 (ofMagnitude false m).toBits.toBitVec).neg :=
    unpack_neg ((toNat_ofMagnitude true h).trans
      (congrArg (· + signBit) (toNat_ofMagnitude false h).symm))
  cases sign with
  | false => exact hneg
  | true =>
    rw [hneg, neg_neg_unpacked]
    rfl

/-- **Negation turns the sign bit over.** -/
theorem neg_ofMagnitude (sign : Bool) (h : m < infinityBits) :
    -ofMagnitude sign m = ofMagnitude (!sign) m := by
  apply toBits_inj
  show UInt32.ofBitVec (UnpackedFloat.pack Format.binary32
    (UnpackedFloat.unpack Format.binary32 (ofMagnitude sign m).toBits.toBitVec).neg) = _
  rw [← unpack_ofMagnitude_not sign h, pack_unpack (unpackExponent_ne_iff.mpr ?_)]
  show (ofMagnitude (!sign) m).toBits.toNat % signBit < infinityBits
  exact lt_of_eq_of_lt (magnitude_ofMagnitude (!sign) h) h

theorem neg_ofMagnitude_false (h : m < infinityBits) :
    -ofMagnitude false m = ofMagnitude true m := neg_ofMagnitude false h

theorem isFinite_neg {v : Float32} (h : v.isFinite = true) : (-v).isFinite = true := by
  have hmagnitude := magnitude_lt h
  rw [← ofMagnitude_magnitude h, neg_ofMagnitude _ hmagnitude]
  exact isFinite_ofMagnitude _ hmagnitude

end GrammarArt.Binary32
