import GrammarArt.Binary32.Printer
import GrammarArt.Binary32.Reader
import GrammarArt.Proofs.Binary32.Bits

/-! # Digits that read back

A finite magnitude is read back from the digits that are printed for it
(`nearest_shortest`): from those that `shortest` finds because they pass this very test, and
also from those it would fall back on, which stand for the exact value.

Where the digits are laid out around a point, without an exponent, the numeral so written
denotes the same decimal, but for the zeros that fill up a whole number
(`exists_plain_numeral`); the canonical layout always does so, and the one of literals writes
an exponent where the point is far off (`exists_literal_numeral`).
-/
namespace GrammarArt.Binary32

variable {b : Nat}

/-! ### Exact values -/

theorem units_eq (b : Nat) :
    ∃ kept shift, units b = kept * 2 ^ shift ∧ (kept * 2 ^ shift).log2 - 23 = shift ∧
      kept + shift * binade = b := by
  by_cases hb : b < binade
  · refine ⟨b, 0, ?_, ?_, by omega⟩
    · rw [units, if_pos hb, Nat.pow_zero, Nat.mul_one]
    · rw [Nat.pow_zero, Nat.mul_one]
      rcases Nat.eq_zero_or_pos b with rfl | hpos
      · rfl
      · have hlog := (Nat.log2_lt (by omega)).mpr (show b < 2 ^ 23 from hb)
        omega
  · refine ⟨binade + b % binade, b / binade - 1, ?_, ?_, ?_⟩
    · rw [units, if_neg hb]
      rfl
    · have hmod : b % binade < binade := Nat.mod_lt _ (by decide)
      have hlog : ((binade + b % binade) * 2 ^ (b / binade - 1)).log2 =
          23 + (b / binade - 1) := by
        have hkept : 0 < binade + b % binade := Nat.lt_add_right _ (by decide)
        rw [Nat.log2_eq_iff (Nat.mul_pos hkept (Nat.two_pow_pos _)).ne', Nat.pow_add,
          Nat.add_right_comm, Nat.pow_add]
        exact ⟨Nat.mul_le_mul_right _ (Nat.le_add_right _ _),
          Nat.mul_lt_mul_of_pos_right (Nat.add_lt_add_left hmod _) (Nat.two_pow_pos _)⟩
      omega
    · have hdiv := Nat.div_add_mod b binade
      have hpos : 1 ≤ b / binade := (Nat.le_div_iff_mul_le (by decide)).mpr (by omega)
      unfold binade at *
      omega

/-- **A quotient that is a single is read as that single.** -/
theorem nearest_of_exact {num den : Nat} (hden : 0 < den) (hb : b ≤ infinityBits)
    (h : num * unitsInOne = units b * den) : nearest num den = b := by
  obtain ⟨kept, shift, hunits, hshift, hsum⟩ := units_eq b
  have hquotient : num * unitsInOne / den = kept * 2 ^ shift := by
    rw [h, Nat.mul_div_cancel _ hden, hunits]
  have hkept : kept * 2 ^ shift / 2 ^ shift = kept := Nat.mul_div_cancel _ (Nat.two_pow_pos _)
  have hdropped : 2 * (num * unitsInOne - kept * (2 ^ shift * den)) = 0 := by
    rw [h, hunits, Nat.mul_assoc, Nat.sub_self]
  have hstep : 0 < 2 ^ shift * den := Nat.mul_pos (Nat.two_pow_pos _) hden
  simp only [nearest, Nat.pow_eq, hquotient, hshift, hkept, hdropped]
  rw [if_neg (by omega), hsum]
  exact Nat.min_eq_right hb

/-! ### The shortest digits -/

theorem nearest_of_closest {tie : Tie} {grid : Int} {d : Decimal}
    (h : closest tie b grid = some d) : d.nearest = b := by
  unfold closest at h
  simp only at h
  split at h
  · cases h
  · rename_i hbelow _
    cases h
    exact (of_decide_eq_true hbelow).2
  · rename_i habove
    cases h
    exact of_decide_eq_true habove
  · rename_i hbelow habove
    split at h
    · cases h
      exact (of_decide_eq_true hbelow).2
    · cases h
      exact of_decide_eq_true habove

theorem units_pos (hpos : 0 < b) : 0 < units b := by
  unfold units
  split
  · exact hpos
  · exact Nat.mul_pos (Nat.lt_add_right _ (by decide)) (Nat.two_pow_pos _)

theorem le_log2_mul_five_pow {u : Nat} (hu : 0 < u) (n : Nat) : 2 * n ≤ (u * 5 ^ n).log2 := by
  have hpow : 0 < 5 ^ n := Nat.pow_pos (by decide)
  rw [Nat.le_log2 (Nat.mul_pos hu hpow).ne', Nat.pow_mul]
  exact (Nat.pow_le_pow_left (by decide) n).trans (Nat.le_mul_of_pos_left _ hu)

/-- The exact value of a magnitude has too many digits to be taken for zero. -/
theorem nearest_exact (hpos : 0 < b) (hb : b < infinityBits) :
    Decimal.nearest ⟨units b * Nat.pow 5 149, -149⟩ = b := by
  have hlog := le_log2_mul_five_pow (units_pos hpos) 149
  show (if (units b * 5 ^ 149).log2 + 151 ≤ 3 * (148 + 1) then 0
    else Binary32.nearest (units b * 5 ^ 149) (10 ^ 149)) = b
  rw [if_neg (by omega)]
  apply nearest_of_exact (Nat.pow_pos (by decide)) hb.le
  rw [unitsInOne, Nat.mul_assoc, Nat.pow_eq, ← Nat.mul_pow]

theorem nearest_firstReadable (tie : Tie) (hpos : 0 < b) (hb : b < infinityBits) (n : Nat)
    (grid : Int) : (firstReadable tie b n grid).nearest = b := by
  induction n generalizing grid with
  | zero => exact nearest_exact hpos hb
  | succ n ih =>
    rw [firstReadable]
    cases hclosest : closest tie b grid with
    | none => exact ih (grid - 1)
    | some d => exact nearest_of_closest hclosest

/-- **The digits that are printed for a finite magnitude read back as it.** -/
theorem nearest_shortest (tie : Tie) (hb : b < infinityBits) : (shortest tie b).nearest = b := by
  unfold shortest
  split
  · rename_i hzero
    rw [hzero]
    rfl
  · rename_i hne
    exact nearest_firstReadable tie (Nat.pos_of_ne_zero hne) hb _ _

/-! ### Digits around a point -/

theorem digitsValue_eq (ds : List Char) : digitsValue ds = Nat.ofDigitChars 10 ds 0 := rfl

theorem digitsValue_toDigits (n : Nat) : digitsValue (Nat.toDigits 10 n) = n :=
  Nat.ofDigitChars_ten_toDigits

theorem digitsValue_zeros_append (k : Nat) (ds : List Char) :
    digitsValue (List.replicate k '0' ++ ds) = digitsValue ds := by
  rw [digitsValue_eq, Nat.ofDigitChars_append, Nat.ofDigitChars_replicate_zero, Nat.mul_zero]
  rfl

theorem digitsValue_append_zeros (k : Nat) (ds : List Char) :
    digitsValue (ds ++ List.replicate k '0') = digitsValue ds * 10 ^ k := by
  rw [digitsValue_eq, Nat.ofDigitChars_append, Nat.ofDigitChars_replicate_zero, Nat.mul_comm]
  rfl

/-- Zeros at the end of the digits are worth as many powers of ten. -/
theorem nearest_mul_pow {d e : Nat} (h : Decimal.nearest ⟨d, e⟩ < infinityBits) :
    Decimal.nearest ⟨d * 10 ^ e, 0⟩ = Decimal.nearest ⟨d, e⟩ := by
  show (if d * 10 ^ e = 0 then 0 else if 39 ≤ 0 then infinityBits
    else Binary32.nearest (d * 10 ^ e * Nat.pow 10 0) 1) = if d = 0 then 0
    else if 39 ≤ e then infinityBits else Binary32.nearest (d * Nat.pow 10 e) 1
  change (if d = 0 then 0 else if 39 ≤ e then infinityBits
    else Binary32.nearest (d * Nat.pow 10 e) 1) < infinityBits at h
  by_cases hd : d = 0
  · rw [hd, Nat.zero_mul, if_pos rfl, if_pos rfl]
  · have he : ¬ 39 ≤ e := by
      intro he
      rw [if_neg hd, if_pos he] at h
      exact Nat.lt_irrefl _ h
    have hne : d * 10 ^ e ≠ 0 := Nat.mul_ne_zero hd (by positivity)
    rw [if_neg hne, if_neg (by decide), if_neg hd, if_neg he, Nat.pow_eq, Nat.pow_eq,
      Nat.pow_zero, Nat.mul_one]

/-- A quotient may be extended. -/
theorem nearest_mul_left {k : Nat} (hk : 0 < k) (num den : Nat) :
    nearest (k * num) (k * den) = nearest num den := by
  have hquotient : k * num * unitsInOne / (k * den) = num * unitsInOne / den := by
    rw [Nat.mul_assoc, Nat.mul_div_mul_left _ _ hk]
  have hstep : ∀ p, p * (k * den) = k * (p * den) := fun p => Nat.mul_left_comm p k den
  have hdropped : ∀ q step, 2 * (k * num * unitsInOne - q * (k * step)) =
      k * (2 * (num * unitsInOne - q * step)) := by
    intro q step
    rw [Nat.mul_left_comm q, Nat.mul_assoc, ← Nat.mul_sub, Nat.mul_left_comm]
  simp only [nearest, hquotient, hdropped, hstep, Nat.mul_lt_mul_left hk,
    Nat.mul_right_inj hk.ne']

/-- A zero behind the point changes nothing. -/
theorem nearest_mul_ten (d : Nat) :
    Decimal.nearest ⟨d * 10, -1⟩ = Decimal.nearest ⟨d, 0⟩ := by
  show (if (d * 10).log2 + 151 ≤ 3 then 0 else Binary32.nearest (d * 10) (Nat.pow 10 1)) =
    if d = 0 then 0 else if 39 ≤ 0 then infinityBits else Binary32.nearest (d * Nat.pow 10 0) 1
  rw [if_neg (by omega), if_neg (show ¬ 39 ≤ 0 by decide), Nat.pow_eq, Nat.pow_eq, Nat.pow_one,
    Nat.pow_zero, Nat.mul_one, Nat.mul_comm, nearest_mul_left (by decide) d 1]
  split
  · rename_i hzero
    rw [hzero]
    rfl
  · rfl

/-- A run of digits. -/
def IsDigits (ds : List Char) : Prop := ∀ c ∈ ds, c.isDigit = true

theorem isDigits_toDigits (n : Nat) : IsDigits (Nat.toDigits 10 n) :=
  fun _ hc => Nat.isDigit_of_mem_toDigits (by decide) (by decide) hc

theorem isDigits_append {ds es : List Char} :
    IsDigits (ds ++ es) ↔ IsDigits ds ∧ IsDigits es := List.forall_mem_append

theorem isDigits_zeros (k : Nat) : IsDigits (List.replicate k '0') := fun c hc => by
  rw [List.eq_of_mem_replicate hc]
  rfl

/-- The text of a numeral without an exponent. -/
def plainText (whole fraction : List Char) : List Char :=
  whole ++ if fraction = [] then [] else '.' :: fraction

/-- What is written without an exponent is a numeral for the same decimal, but for some zeros
at its end, and it reads back as the digits do. -/
theorem exists_positional_numeral (keepsPoint : Bool) {digits : List Char} {e : Int}
    (hne : digits ≠ []) (hdigits : IsDigits digits)
    (hfinite : Decimal.nearest ⟨digitsValue digits, e⟩ < infinityBits) :
    ∃ whole fraction, positionalText keepsPoint digits (digits.length + e) =
        plainText whole fraction ∧ (keepsPoint = true → fraction ≠ []) ∧
      whole ≠ [] ∧ IsDigits whole ∧ IsDigits fraction ∧
      (whole = ['0'] ∨ whole.head? = digits.head?) ∧
      (∃ zeros ≤ (e + 1).toNat, Numeral.decimal ⟨whole, fraction, 0⟩ =
        ⟨digitsValue digits * 10 ^ zeros, e - zeros⟩) ∧
      (Numeral.decimal ⟨whole, fraction, 0⟩).nearest =
        Decimal.nearest ⟨digitsValue digits, e⟩ := by
  have hpos : 0 < digits.length := List.length_pos_iff.mpr hne
  -- Without zeros at its end, the numeral is the very same decimal.
  have hsame {n : Numeral} (h : n.decimal = ⟨digitsValue digits, e⟩) :
      (∃ zeros ≤ (e + 1).toNat, n.decimal = ⟨digitsValue digits * 10 ^ zeros, e - zeros⟩) ∧
        n.decimal.nearest = Decimal.nearest ⟨digitsValue digits, e⟩ :=
    ⟨⟨0, Nat.zero_le _, by rw [h, Nat.pow_zero, Nat.mul_one, Nat.cast_zero, Int.sub_zero]⟩, by rw [h]⟩
  cases hplace : (digits.length + e : Int) with
  | ofNat p =>
    rw [Int.ofNat_eq_natCast] at hplace
    by_cases hzero : p = 0
    · -- All digits stand behind the point.
      have he : e = -digits.length := by omega
      refine ⟨['0'], digits, ?_, fun _ => hne, by simp, by simp [IsDigits], hdigits, .inl rfl,
        hsame ?_⟩
      · rw [positionalText, if_pos hzero, plainText, if_neg hne]
        rfl
      · rw [Numeral.decimal, Int.zero_sub, he]
        exact congrArg (fun d => Decimal.mk d _) (digitsValue_zeros_append 1 digits)
    · by_cases hlen : digits.length ≤ p
      · -- A whole number, filled up with zeros.
        obtain ⟨k, rfl⟩ := Nat.exists_eq_add_of_le hlen
        have he : e = (k : Int) := by omega
        have hwhole : IsDigits (digits ++ List.replicate k '0') :=
          isDigits_append.mpr ⟨hdigits, isDigits_zeros k⟩
        have hhead : (digits ++ List.replicate k '0').head? = digits.head? :=
          List.head?_append_of_ne_nil _ hne
        have hvalue : Decimal.nearest ⟨digitsValue (digits ++ List.replicate k '0'), 0⟩ =
            Decimal.nearest ⟨digitsValue digits, e⟩ := by
          rw [digitsValue_append_zeros]
          rw [he] at hfinite ⊢
          exact nearest_mul_pow hfinite
        cases keepsPoint with
        | false =>
          refine ⟨digits ++ List.replicate k '0', [], ?_, nofun, by simp [hne], hwhole,
            by simp [IsDigits], .inr hhead, ⟨k, by omega, ?_⟩, ?_⟩
          · rw [positionalText, if_neg hzero, if_pos hlen, Nat.add_sub_cancel_left]
            rfl
          · rw [Numeral.decimal, List.append_nil, digitsValue_append_zeros, he, Int.sub_self]
            rfl
          · rw [Numeral.decimal, List.append_nil]
            exact hvalue
        | true =>
          refine ⟨digits ++ List.replicate k '0', ['0'], ?_, by simp, by simp [hne], hwhole,
            by simp [IsDigits], .inr hhead, ⟨k + 1, by omega, ?_⟩, ?_⟩
          · rw [positionalText, if_neg hzero, if_pos hlen, Nat.add_sub_cancel_left]
            rfl
          · have hzeros : digitsValue (digits ++ List.replicate k '0' ++ ['0']) =
                digitsValue digits * 10 ^ (k + 1) := by
              rw [List.append_assoc, ← List.replicate_succ', digitsValue_append_zeros]
            rw [Numeral.decimal, hzeros, he]
            refine congrArg (Decimal.mk _) ?_
            show (0 : Int) - (1 : Nat) = k - (k + 1 : Nat)
            omega
          · rw [Numeral.decimal, ← hvalue]
            exact (congrArg (fun d => Decimal.nearest ⟨d, -1⟩)
              (digitsValue_append_zeros 1 _)).trans (nearest_mul_ten _)
      · -- The point stands between two digits.
        have hdrop : digits.drop p ≠ [] := by simpa using hlen
        have htake : digits.take p ≠ [] := by simp [hzero, hne]
        have he : e = -((digits.drop p).length : Int) := by
          rw [List.length_drop]
          omega
        have hsplit := isDigits_append.mp ((List.take_append_drop p digits).symm ▸ hdigits)
        refine ⟨digits.take p, digits.drop p, ?_, fun _ => hdrop, htake, hsplit.1, hsplit.2,
          .inr ?_, hsame ?_⟩
        · rw [positionalText, if_neg hzero, if_neg hlen, plainText, if_neg hdrop]
        · rw [← List.head?_append_of_ne_nil _ htake, List.take_append_drop]
        · rw [Numeral.decimal, List.take_append_drop, Int.zero_sub, ← he]
  | negSucc p =>
    have he : e = -((List.replicate (p + 1) '0' ++ digits).length : Int) := by
      rw [List.length_append, List.length_replicate]
      omega
    refine ⟨['0'], List.replicate (p + 1) '0' ++ digits, ?_, by simp [hne], by simp,
      by simp [IsDigits], isDigits_append.mpr ⟨isDigits_zeros _, hdigits⟩, .inl rfl, hsame ?_⟩
    · rw [positionalText, plainText, if_neg (by simp [hne])]
      rfl
    · rw [Numeral.decimal, Int.zero_sub, ← he]
      exact congrArg (fun d => Decimal.mk d e) (digitsValue_zeros_append (p + 2) digits)

/-- The digits of a magnitude, read back. -/
theorem nearest_digitsValue_shortest (tie : Tie) (hb : b < infinityBits) :
    Decimal.nearest ⟨digitsValue (Nat.toDigits 10 (shortest tie b).digits),
      (shortest tie b).exponent⟩ = b := by
  rw [digitsValue_toDigits]
  exact nearest_shortest tie hb

/-- The place of the point among the digits of a magnitude. -/
def pointPlace (tie : Tie) (b : Nat) : Int :=
  (Nat.toDigits 10 (shortest tie b).digits).length + (shortest tie b).exponent

/-- **What is written of a magnitude without an exponent is a numeral that reads back as
it.** -/
theorem exists_plain_numeral {form : Layout} (hb : b < infinityBits)
    (hplace : form.positional (pointPlace form.tie b) = true) :
    ∃ whole fraction, magnitudeText form b = plainText whole fraction ∧
      (form.keepsPoint = true → fraction ≠ []) ∧ whole ≠ [] ∧ IsDigits whole ∧
      IsDigits fraction ∧ (Numeral.decimal ⟨whole, fraction, 0⟩).nearest = b := by
  have hread := nearest_digitsValue_shortest form.tie hb
  obtain ⟨whole, fraction, htext, hpoint, hwhole, hdigits, hfraction, -, -, hdecimal⟩ :=
    exists_positional_numeral form.keepsPoint Nat.toDigits_ne_nil (isDigits_toDigits _)
      (hread.trans_lt hb)
  refine ⟨whole, fraction, ?_, hpoint, hwhole, hdigits, hfraction, hdecimal.trans hread⟩
  rw [← htext]
  exact if_pos hplace

/-! ### The canonical layout -/

/-- The canonical text of a finite number is a numeral for its magnitude, behind a sign if
it is negative. -/
theorem exists_print_canonical {v : Float32} (h : v.isFinite = true) :
    ∃ whole fraction, (print canonical v).toList =
        (if negative v then ['-'] else []) ++ plainText whole fraction ∧ whole ≠ [] ∧
      IsDigits whole ∧ IsDigits fraction ∧
      Numeral.value ⟨whole, fraction, 0⟩ = ofMagnitude false (magnitude v) := by
  obtain ⟨whole, fraction, htext, -, hwhole, hdigits, hfraction, hdecimal⟩ :=
    exists_plain_numeral (magnitude_lt h) (show canonical.positional _ = true from rfl)
  refine ⟨whole, fraction, ?_, hwhole, hdigits, hfraction, by rw [Numeral.value, hdecimal]⟩
  simp only [print, isNaN_eq_false h, isInf_eq_false h, Bool.false_eq_true, if_false,
    String.toList_ofList, htext]
  cases negative v with
  | false => rfl
  | true => rfl

/-! ### The layout of literals -/

/-- The text of a numeral with an exponent. -/
def scientificText (n : Numeral) : List Char :=
  plainText n.whole n.fraction ++ 'e' :: wholeText n.exponent

/-- What is written with an exponent is a numeral for the same decimal. -/
theorem exists_scientific_numeral {digits : List Char} {e : Int} (hne : digits ≠ [])
    (hdigits : IsDigits digits) :
    ∃ n : Numeral, exponentText digits (digits.length + e) = scientificText n ∧
      n.whole ≠ [] ∧ IsDigits n.whole ∧ IsDigits n.fraction ∧
      n.whole.head? = digits.head? ∧ n.decimal = ⟨digitsValue digits, e⟩ := by
  cases digits with
  | nil => exact absurd rfl hne
  | cons d ds =>
    obtain ⟨hd, hds⟩ := List.forall_mem_cons.mp hdigits
    refine ⟨⟨[d], ds, (d :: ds).length + e - 1⟩, ?_, List.cons_ne_nil d [],
      List.forall_mem_singleton.mpr hd, hds, rfl, ?_⟩
    · cases ds with
      | nil => rfl
      | cons d' ds => simp [exponentText, scientificText, plainText]
    · rw [Numeral.decimal, List.length_cons]
      refine congrArg (Decimal.mk _) ?_
      show ((ds.length + 1 : Nat) + e - 1 - ds.length : Int) = e
      omega

/-- **The literal of a magnitude is a numeral with a point or an exponent that reads back as
it.** -/
theorem exists_literal_numeral (hb : b < infinityBits) :
    ∃ n : Numeral, n.whole ≠ [] ∧ IsDigits n.whole ∧ IsDigits n.fraction ∧ n.decimal.nearest = b ∧
      (magnitudeText literal b = plainText n.whole n.fraction ∧ n.fraction ≠ [] ∧ n.exponent = 0 ∨
        magnitudeText literal b = scientificText n) := by
  cases hplace : literal.positional (pointPlace literal.tie b) with
  | true =>
    obtain ⟨whole, fraction, htext, hpoint, hwhole, hdigits, hfraction, hread⟩ :=
      exists_plain_numeral hb hplace
    exact ⟨⟨whole, fraction, 0⟩, hwhole, hdigits, hfraction, hread, .inl ⟨htext, hpoint rfl, rfl⟩⟩
  | false =>
    obtain ⟨n, htext, hwhole, hdigits, hfraction, -, hdecimal⟩ := exists_scientific_numeral
      Nat.toDigits_ne_nil (isDigits_toDigits (shortest literal.tie b).digits)
    refine ⟨n, hwhole, hdigits, hfraction, ?_, .inr ?_⟩
    · rw [hdecimal, nearest_digitsValue_shortest literal.tie hb]
    · rw [← htext]
      exact if_neg (by rw [← pointPlace, hplace]; exact Bool.false_ne_true)

end GrammarArt.Binary32
