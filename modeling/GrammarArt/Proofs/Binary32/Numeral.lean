import GrammarArt.Proofs.Binary32.Decimal
import Mathlib.Data.List.TakeWhile

/-! # Texts of finite numbers

A text that is read as a finite number consists of digits, points, signs and the letter of an
exponent, and does not begin with that letter (`NumberText.of_read?`); so it is told apart from
a name by its first character, and it contains no separator of any kind.  The canonical text of
a finite number is read as this number (`read?_print_canonical`).
-/
namespace GrammarArt.Binary32

/-- The characters of numbers. -/
def IsNumberPart (c : Char) : Prop := c.isDigit = true ∨ c ∈ ['.', '+', '-', 'e', 'E']

/-- The characters that numbers begin with. -/
def IsNumberStart (c : Char) : Prop := c.isDigit = true ∨ c ∈ ['.', '+', '-']

/-- What every text of a finite number is. -/
structure NumberText (cs : List Char) : Prop where
  parts : ∀ c ∈ cs, IsNumberPart c
  start : ∃ c ∈ cs.head?, IsNumberStart c

theorem isNumberPart_takeWhile (cs : List Char) : ∀ c ∈ cs.takeWhile Char.isDigit, IsNumberPart c :=
  fun _ hc => .inl (List.mem_takeWhile_imp hc)

theorem isNumberPart_of_exponent? {cs : List Char} {e : Int} (h : exponent? cs = some e) :
    ∀ c ∈ cs, IsNumberPart c := by
  have hdigits {ds : List Char} (hds : ds ≠ [] ∧ ds.all Char.isDigit = true) :
      ∀ c ∈ ds, IsNumberPart c := fun c hc => .inl (List.all_eq_true.mp hds.2 c hc)
  unfold exponent? at h
  split at h
  · split at h
    · rename_i hds
      exact List.forall_mem_cons.mpr ⟨.inr (by decide), hdigits hds⟩
    · cases h
  · split at h
    · rename_i hds
      exact List.forall_mem_cons.mpr ⟨.inr (by decide), hdigits hds⟩
    · cases h
  · split at h
    · rename_i hds
      exact hdigits hds
    · cases h

/-- What stands behind the digits of a number. -/
theorem isNumberPart_of_tail {tail : List Char} {whole : Numeral} {scaled : Int → Numeral}
    {n : Numeral} (h : (match tail with
      | [] => some whole
      | e :: r => if e = 'e' ∨ e = 'E' then (exponent? r).map scaled else none) = some n) :
    ∀ c ∈ tail, IsNumberPart c := by
  split at h
  · exact List.forall_mem_nil _
  · split at h
    · rename_i e r he
      obtain ⟨_, hexponent, -⟩ := Option.map_eq_some_iff.mp h
      refine List.forall_mem_cons.mpr ⟨.inr ?_, isNumberPart_of_exponent? hexponent⟩
      rcases he with rfl | rfl <;> decide
    · cases h

/-- Digits at the start of a text are where a number begins. -/
theorem isNumberStart_of_takeWhile {cs : List Char} (h : cs.takeWhile Char.isDigit ≠ []) :
    ∃ c ∈ cs.head?, IsNumberStart c := by
  cases cs with
  | nil => exact absurd rfl h
  | cons c cs =>
    refine ⟨c, rfl, .inl ?_⟩
    rw [List.takeWhile_cons] at h
    split at h
    · assumption
    · exact absurd rfl h

theorem NumberText.of_ofText? {cs : List Char} {n : Numeral} (h : Numeral.ofText? cs = some n) :
    NumberText cs := by
  have hsplit := List.takeWhile_append_dropWhile (p := Char.isDigit) (l := cs)
  unfold Numeral.ofText? at h
  simp only at h
  split at h
  · rename_i fraction hrest
    split at h
    · cases h
    · have htail := isNumberPart_of_tail h
      rw [hrest] at hsplit
      refine ⟨?_, ?_⟩
      · rw [← hsplit, ← List.takeWhile_append_dropWhile (p := Char.isDigit) (l := fraction)]
        refine List.forall_mem_append.mpr ⟨isNumberPart_takeWhile cs, ?_⟩
        refine List.forall_mem_cons.mpr ⟨.inr (by decide), ?_⟩
        exact List.forall_mem_append.mpr ⟨isNumberPart_takeWhile fraction, htail⟩
      · by_cases hwhole : cs.takeWhile Char.isDigit = []
        · rw [hwhole] at hsplit
          exact ⟨'.', by rw [← hsplit]; rfl, .inr (by decide)⟩
        · exact isNumberStart_of_takeWhile hwhole
  · split at h
    · cases h
    · rename_i hne
      have htail := isNumberPart_of_tail h
      refine ⟨?_, isNumberStart_of_takeWhile fun hwhole => hne ⟨hwhole, rfl⟩⟩
      rw [← hsplit]
      exact List.forall_mem_append.mpr ⟨isNumberPart_takeWhile cs, htail⟩

/-- The names of infinity and of what is not a number do not stand for finite numbers. -/
theorem of_readUnsigned? {cs : List Char} {v : Float32} (h : readUnsigned? cs = some v) :
    NumberText cs ∨ v = ofMagnitude false infinityBits ∨ v = Float32.ofBits 0x7fc00000 := by
  unfold readUnsigned? at h
  simp only at h
  split at h
  · exact .inr (.inl (Option.some.inj h).symm)
  · split at h
    · exact .inr (.inr (Option.some.inj h).symm)
    · obtain ⟨n, hn, -⟩ := Option.map_eq_some_iff.mp h
      exact .inl (.of_ofText? hn)

/-- **Every text that is read as a finite number is the text of a number.** -/
theorem NumberText.of_read? {cs : List Char} {v : Float32} (h : read? cs = some v)
    (hv : v.isFinite = true) : NumberText cs := by
  have hsigned {sign : Char} {ds : List Char} (hsign : sign ∈ ['.', '+', '-'])
      (hds : NumberText ds) : NumberText (sign :: ds) :=
    ⟨List.forall_mem_cons.mpr ⟨.inr (List.mem_append_left ['e', 'E'] hsign), hds.parts⟩,
      sign, rfl, .inr hsign⟩
  unfold read? at h
  split at h
  · obtain ⟨w, hw, rfl⟩ := Option.map_eq_some_iff.mp h
    rcases of_readUnsigned? hw with htext | rfl | rfl
    · exact hsigned (by decide) htext
    · exact absurd hv (by decide)
    · exact absurd hv (by decide)
  · rcases of_readUnsigned? h with htext | rfl | rfl
    · exact hsigned (by decide) htext
    · exact absurd hv (by decide)
    · exact absurd hv (by decide)
  · rcases of_readUnsigned? h with htext | rfl | rfl
    · exact htext
    · exact absurd hv (by decide)
    · exact absurd hv (by decide)

/-! ### Texts of numerals -/

theorem ofText?_plainText {whole fraction : List Char} (hne : whole ≠ [])
    (hwhole : IsDigits whole) (hfraction : IsDigits fraction) :
    Numeral.ofText? (plainText whole fraction) = some ⟨whole, fraction, 0⟩ := by
  unfold Numeral.ofText? plainText
  simp only [List.takeWhile_append_of_pos hwhole, List.dropWhile_append_of_pos hwhole]
  by_cases hnil : fraction = []
  · simp [hnil, hne]
  · have hpoint : ('.' :: fraction).dropWhile Char.isDigit = '.' :: fraction := rfl
    have hpoint' : ('.' :: fraction).takeWhile Char.isDigit = [] := rfl
    have hdigits : fraction.takeWhile Char.isDigit = fraction :=
      List.takeWhile_eq_self_iff.mpr hfraction
    have hrest : fraction.dropWhile Char.isDigit = [] := List.dropWhile_eq_nil_iff.mpr hfraction
    rw [if_neg hnil, hpoint, hpoint']
    simp [hdigits, hrest, hne]

theorem exponent?_wholeText (k : Int) : exponent? (wholeText k) = some k := by
  have hall (n : Nat) : Nat.toDigits 10 n ≠ [] ∧ (Nat.toDigits 10 n).all Char.isDigit = true :=
    ⟨Nat.toDigits_ne_nil, List.all_eq_true.mpr (isDigits_toDigits n)⟩
  -- The digits of a natural number begin with none of the signs.
  have hsign {n : Nat} {sign : Char} {ds : List Char} (hsign : sign.isDigit = false) :
      Nat.toDigits 10 n ≠ sign :: ds := by
    intro h
    have hdigit := isDigits_toDigits n sign (h ▸ List.mem_cons_self)
    rw [hsign] at hdigit
    cases hdigit
  cases k with
  | ofNat n =>
    rw [wholeText]
    unfold exponent?
    split
    · rename_i h
      exact absurd h (hsign rfl)
    · rename_i h
      exact absurd h (hsign rfl)
    · rw [if_pos (hall n), digitsValue_toDigits]
      rfl
  | negSucc n =>
    show (if _ then _ else _) = _
    rw [if_pos (hall (n + 1)), digitsValue_toDigits]
    rfl

theorem ofText?_scientificText {n : Numeral} (hne : n.whole ≠ []) (hwhole : IsDigits n.whole)
    (hfraction : IsDigits n.fraction) : Numeral.ofText? (scientificText n) = some n := by
  have hletter (cs : List Char) : ('e' :: cs).takeWhile Char.isDigit = [] ∧
      ('e' :: cs).dropWhile Char.isDigit = 'e' :: cs := ⟨rfl, rfl⟩
  have hpoint (cs : List Char) : ('.' :: cs).takeWhile Char.isDigit = [] ∧
      ('.' :: cs).dropWhile Char.isDigit = '.' :: cs := ⟨rfl, rfl⟩
  obtain ⟨whole, fraction, exponent⟩ := n
  unfold Numeral.ofText? scientificText plainText
  rw [List.append_assoc]
  simp only [List.takeWhile_append_of_pos hwhole, List.dropWhile_append_of_pos hwhole]
  by_cases hnil : fraction = []
  · subst hnil
    simp [hne, hletter, exponent?_wholeText]
  · simp [hnil, hne, hpoint, List.takeWhile_append_of_pos hfraction,
      List.dropWhile_append_of_pos hfraction, hletter, exponent?_wholeText]

/-! ### Canonical texts -/

theorem toLower_of_isDigit {c : Char} (hc : c.isDigit = true) : c.toLower = c := by
  have hnot : ¬ (c.val ≥ 'A'.val ∧ c.val ≤ 'Z'.val) := by
    rintro ⟨hupper, -⟩
    simp only [Char.isDigit, Bool.and_eq_true, decide_eq_true_eq] at hc
    have hle : 'A'.val ≤ '9'.val := UInt32.le_trans hupper hc.2
    exact absurd hle (by decide)
  rw [Char.toLower, dif_neg hnot]

/-- A text that begins with a digit is no name of a number. -/
theorem readUnsigned?_of_isDigit {c : Char} {cs : List Char} (hc : c.isDigit = true) :
    readUnsigned? (c :: cs) = (Numeral.ofText? (c :: cs)).map Numeral.value := by
  have hne (d : Char) (ds : List Char) (hd : d.isDigit = false) :
      String.ofList ((c :: cs).map Char.toLower) ≠ String.ofList (d :: ds) := by
    intro h
    have hhead := (List.cons.inj (String.ofList_injective h)).1
    rw [toLower_of_isDigit hc] at hhead
    rw [← hhead, hc] at hd
    cases hd
  have hinf := hne 'i' ['n', 'f'] rfl
  have hinfinity := hne 'i' ['n', 'f', 'i', 'n', 'i', 't', 'y'] rfl
  have hnan := hne 'n' ['a', 'n'] rfl
  unfold readUnsigned?
  simp only
  rw [if_neg (not_or.mpr ⟨hinf, hinfinity⟩), if_neg hnan]

theorem readUnsigned?_plainText {whole fraction : List Char} (hne : whole ≠ [])
    (hwhole : IsDigits whole) (hfraction : IsDigits fraction) :
    readUnsigned? (plainText whole fraction) = some (Numeral.value ⟨whole, fraction, 0⟩) := by
  have htext := ofText?_plainText hne hwhole hfraction
  cases whole with
  | nil => exact absurd rfl hne
  | cons c whole =>
    have hread : readUnsigned? (plainText (c :: whole) fraction) = _ :=
      readUnsigned?_of_isDigit (hwhole c List.mem_cons_self)
    rw [hread]
    exact congrArg (Option.map Numeral.value) htext

/-- A text that begins with a digit has no sign. -/
theorem read?_of_isDigit {c : Char} {cs : List Char} (hc : c.isDigit = true) :
    read? (c :: cs) = readUnsigned? (c :: cs) := by
  unfold read?
  split
  · rename_i heq
    cases heq
    cases hc
  · rename_i heq
    cases heq
    cases hc
  · rfl

/-- **The canonical text of a finite number is read as this number.** -/
theorem read?_print_canonical {v : Float32} (h : v.isFinite = true) :
    read? (print canonical v).toList = some v := by
  obtain ⟨whole, fraction, htext, hne, hwhole, hfraction, hvalue⟩ := exists_print_canonical h
  have hread := readUnsigned?_plainText hne hwhole hfraction
  have hmagnitude := ofMagnitude_magnitude h
  rw [hvalue] at hread
  rw [htext]
  cases hsign : negative v with
  | false =>
    rw [hsign] at hmagnitude
    rw [hmagnitude] at hread
    cases whole with
    | nil => exact absurd rfl hne
    | cons c whole => exact (read?_of_isDigit (hwhole c List.mem_cons_self)).trans hread
  | true =>
    rw [hsign, ← neg_ofMagnitude_false (magnitude_lt h)] at hmagnitude
    show (readUnsigned? (plainText whole fraction)).map (- ·) = some v
    rw [hread, Option.map_some, hmagnitude]

end GrammarArt.Binary32
