import GrammarArt.Proofs.Binary32.Numeral
import GrammarArt.Proofs.Expression.Regular

/-! # The longest numeral

The numeral that is read at the beginning of a text is the longest one there (`numeral_eq_ok`).
This is shown part by part.  Its digits, with the point among them, are as many as there can be
(`exists_mantissa`); what follows them is an exponent as a whole, or it is none, or it begins like
one and then there is no numeral at all (`behindDigits_append`).

A text in the language of numerals can be read as a number, and this is the number that its parts
denote (`read?_of_mem_numerals`).
-/
namespace GrammarArt.Expression

open Text Binary32

/-! ### Reading numerals -/

/-- The power of ten that stands behind the digits of a numeral. -/
def tailExponent? : List Char → Option Int
  | [] => some 0
  | e :: rest => if e = 'e' ∨ e = 'E' then exponent? rest else none

/-- An exponent, from its sign and the value of its digits. -/
def signed (sign : List Char) (value : Nat) : Int := if sign = ['-'] then -value else value

theorem map_tailExponent? (tail : List Char) (scaled : Int → Numeral) :
    (match tail with
      | [] => some (scaled 0)
      | e :: r => if e = 'e' ∨ e = 'E' then (exponent? r).map scaled else none) =
      (tailExponent? tail).map scaled := by
  cases tail with
  | nil => rfl
  | cons e r =>
    dsimp only [tailExponent?]
    split
    · rfl
    · rfl

section
variable {whole fraction tail : List Char}

theorem ofText?_append (hwhole : IsDigits whole) (hfraction : IsDigits fraction)
    (hne : whole ≠ [] ∨ fraction ≠ []) (htail : ∀ c ∈ tail.head?, c.isDigit = false ∧ c ≠ '.') :
    Numeral.ofText? (plainText whole fraction ++ tail) =
      (tailExponent? tail).map (⟨whole, fraction, ·⟩) := by
  have hdigit : ∀ c ∈ tail.head?, c.isDigit = false := fun c hc => (htail c hc).1
  have hsome : ¬ (whole = [] ∧ fraction = []) := by
    rintro ⟨rfl, rfl⟩
    exact hne.elim (· rfl) (· rfl)
  by_cases hnone : fraction = []
  · subst hnone
    have hpoint : ∀ ds, tail = '.' :: ds → False := by
      rintro ds rfl
      exact (htail '.' rfl).2 rfl
    rw [plainText, if_pos rfl, List.append_nil, Numeral.ofText?]
    simp only [takeWhile_append hwhole hdigit, dropWhile_append hwhole hdigit]
    exact (if_neg fun h => hsome ⟨h.1, rfl⟩).trans (map_tailExponent? tail _)
  · have hpoint : ∀ c ∈ ('.' :: (fraction ++ tail)).head?, c.isDigit = false := by
      rintro c ⟨rfl⟩
      rfl
    rw [plainText, if_neg hnone, List.append_assoc, List.cons_append, Numeral.ofText?]
    simp only [takeWhile_append hwhole hpoint, dropWhile_append hwhole hpoint,
      takeWhile_append hfraction hdigit, dropWhile_append hfraction hdigit]
    exact (if_neg hsome).trans (map_tailExponent? tail _)

theorem not_isSign_of_isDigit {c : Char} (hc : c.isDigit = true) : ¬ IsSign [c] := by
  rintro (h | h | h)
  · cases h
  · cases h
    cases hc
  · cases h
    cases hc

theorem exponent?_append {sign ds : List Char} (hsign : IsSign sign) (hne : ds ≠ [])
    (hds : IsDigits ds) : exponent? (sign ++ ds) = some (signed sign (digitsValue ds)) := by
  have hall : ds ≠ [] ∧ ds.all Char.isDigit = true := ⟨hne, List.all_eq_true.mpr hds⟩
  rcases hsign with rfl | rfl | rfl
  · rw [List.nil_append, exponent?.eq_def]
    split
    · exact absurd (.inr (.inr rfl)) (not_isSign_of_isDigit (hds '-' List.mem_cons_self))
    · exact absurd (.inr (.inl rfl)) (not_isSign_of_isDigit (hds '+' List.mem_cons_self))
    · rw [if_pos hall]
      rfl
  · exact if_pos hall
  · exact if_pos hall

/-- Every text is a sign and something that has none. -/
theorem exists_sign (cs : List Char) : ∃ sign body, cs = sign ++ body ∧ IsSign sign ∧
    (sign = [] → ∀ c ∈ body.head?, ¬ IsSign [c]) := by
  cases cs with
  | nil => exact ⟨[], [], rfl, .inl rfl, fun _ => nofun⟩
  | cons c cs =>
    by_cases hc : IsSign [c]
    · exact ⟨[c], cs, rfl, hc, fun h => absurd h (List.cons_ne_nil c [])⟩
    · exact ⟨[], c :: cs, rfl, .inl rfl, fun _ d hd => Option.some.inj hd ▸ hc⟩

/-- The number of characters of a sign. -/
def signWidth : List Char → Nat
  | '+' :: _ | '-' :: _ => 1
  | _ => 0

section
variable {sign body : List Char} (hsign : IsSign sign)
  (hbody : sign = [] → ∀ c ∈ body.head?, ¬ IsSign [c])

include hsign hbody

theorem signWidth_append : signWidth (sign ++ body) = sign.length := by
  rcases hsign with rfl | rfl | rfl
  · rw [List.nil_append, signWidth.eq_def]
    split
    · exact absurd (.inr (.inl rfl)) (hbody rfl '+' rfl)
    · exact absurd (.inr (.inr rfl)) (hbody rfl '-' rfl)
    · rfl
  · rfl
  · rfl

theorem head?_append_eq_minus : (sign ++ body).head? = some '-' ↔ sign = ['-'] := by
  rcases hsign with rfl | rfl | rfl
  · exact ⟨fun h => absurd (.inr (.inr rfl)) (hbody rfl '-' h), nofun⟩
  · exact ⟨nofun, nofun⟩
  · exact ⟨fun _ => rfl, fun _ => rfl⟩

/-- **What begins like an exponent is one as far as its digits go, or no numeral is there.** -/
theorem behindDigits_append {e : Char} {width : Nat} (he : e = 'e' ∨ e = 'E') :
    behindDigits whole fraction width (e :: (sign ++ body)) =
      if body.takeWhile Char.isDigit = [] then .error width
      else .ok (⟨whole, fraction, signed sign (digitsValue (body.takeWhile Char.isDigit))⟩,
        width + (e :: (sign ++ body.takeWhile Char.isDigit)).length) := by
  have hletter (rest : List Char) : behindDigits whole fraction width (e :: rest) =
      if (rest.drop (signWidth rest)).takeWhile Char.isDigit = [] then .error width
      else .ok (⟨whole, fraction,
          if rest.head? = some '-' then
            -(digitsValue ((rest.drop (signWidth rest)).takeWhile Char.isDigit) : Int)
          else digitsValue ((rest.drop (signWidth rest)).takeWhile Char.isDigit)⟩,
        width + 1 + signWidth rest +
          ((rest.drop (signWidth rest)).takeWhile Char.isDigit).length) := if_pos he
  have hwidth : width + (e :: (sign ++ body.takeWhile Char.isDigit)).length =
      width + 1 + sign.length + (body.takeWhile Char.isDigit).length := by
    rw [List.length_cons, List.length_append]
    omega
  simp only [hletter, signWidth_append hsign hbody, head?_append_eq_minus hsign hbody,
    List.drop_left, hwidth, signed]

end

theorem behindDigits_of_ne {e : Char} {rest : List Char} {width : Nat}
    (he : ¬ (e = 'e' ∨ e = 'E')) :
    behindDigits whole fraction width (e :: rest) = .ok (⟨whole, fraction, 0⟩, width) := if_neg he

/-- The text behind the digits that a numeral goes on with. -/
theorem behindDigits_eq_ok {width total : Nat} {n : Numeral}
    (h : behindDigits whole fraction width tail = .ok (n, total)) :
    ∃ text rest, tail = text ++ rest ∧ total = width + text.length ∧
      (text = [] ∨ text ∈ exponents) ∧
      (tailExponent? text).map (⟨whole, fraction, ·⟩) = some n := by
  cases tail with
  | nil =>
    cases h
    exact ⟨[], [], rfl, rfl, .inl rfl, rfl⟩
  | cons e rest =>
    by_cases he : e = 'e' ∨ e = 'E'
    · obtain ⟨sign, body, rfl, hsign, hbody⟩ := exists_sign rest
      rw [behindDigits_append hsign hbody he] at h
      split at h
      · cases h
      · rename_i hne
        cases h
        have hdigits : IsDigits (body.takeWhile Char.isDigit) := fun d => List.mem_takeWhile_imp
        refine ⟨e :: (sign ++ body.takeWhile Char.isDigit), body.dropWhile Char.isDigit, ?_, rfl,
          .inr (mem_exponents.mpr ⟨e, sign, _, rfl, he, hsign, hne, hdigits⟩), ?_⟩
        · rw [List.cons_append, List.append_assoc, List.takeWhile_append_dropWhile]
        · rw [tailExponent?, if_pos he, exponent?_append hsign hne hdigits]
          rfl
    · rw [behindDigits_of_ne he] at h
      cases h
      exact ⟨[], e :: rest, rfl, rfl, .inl rfl, rfl⟩

theorem length_le_takeWhile {p : Char → Bool} {ds : List Char} (hds : ∀ d ∈ ds, p d = true)
    (rest : List Char) : ds.length ≤ ((ds ++ rest).takeWhile p).length := by
  rw [List.takeWhile_append_of_pos hds, List.length_append]
  exact Nat.le_add_right _ _

/-- Where an exponent stands behind the digits, the numeral goes on at least up to its end. -/
theorem le_of_behindDigits_eq_ok {text rest : List Char} {width total : Nat} {n : Numeral}
    (htext : text ∈ exponents)
    (h : behindDigits whole fraction width (text ++ rest) = .ok (n, total)) :
    width + text.length ≤ total := by
  obtain ⟨e, sign, ds, rfl, he, hsign, hne, hdigits⟩ := mem_exponents.mp htext
  have hbody : sign = [] → ∀ c ∈ (ds ++ rest).head?, ¬ IsSign [c] := by
    intro _ c hc
    rw [List.head?_append_of_ne_nil ds hne] at hc
    exact not_isSign_of_isDigit (hdigits c (List.mem_of_mem_head? hc))
  have hlength := length_le_takeWhile hdigits rest
  rw [List.cons_append, List.append_assoc, behindDigits_append hsign hbody he] at h
  split at h
  · cases h
  · cases h
    rw [List.length_cons, List.length_cons, List.length_append, List.length_append]
    omega

theorem behindDigits_eq_error {width before : Nat}
    (h : behindDigits whole fraction width tail = .error before) : before = width := by
  cases tail with
  | nil => cases h
  | cons e rest =>
    by_cases he : e = 'e' ∨ e = 'E'
    · obtain ⟨sign, body, rfl, hsign, hbody⟩ := exists_sign rest
      rw [behindDigits_append hsign hbody he] at h
      split at h
      · cases h
        rfl
      · cases h
    · rw [behindDigits_of_ne he] at h
      cases h

end

/-! ### The digits of a numeral -/

theorem length_plainText (whole fraction : List Char) : (plainText whole fraction).length =
    whole.length + if fraction = [] then 0 else fraction.length + 1 := by
  rw [plainText, List.length_append]
  split
  · rfl
  · rfl

/-- The digits behind a point. -/
def pointedDigits : List Char → List Char
  | '.' :: ds => ds.takeWhile Char.isDigit
  | _ => []

theorem isDigits_pointedDigits (cs : List Char) : IsDigits (pointedDigits cs) := by
  unfold pointedDigits
  split
  · exact fun d => List.mem_takeWhile_imp
  · exact nofun

theorem exists_pointedDigits_append (cs : List Char) : ∃ tail,
    cs = (if pointedDigits cs = [] then [] else '.' :: pointedDigits cs) ++ tail := by
  by_cases hnone : pointedDigits cs = []
  · exact ⟨cs, by rw [if_pos hnone, List.nil_append]⟩
  · rw [if_neg hnone]
    unfold pointedDigits at hnone ⊢
    split at hnone
    · rename_i ds
      exact ⟨ds.dropWhile Char.isDigit, by rw [List.cons_append, List.takeWhile_append_dropWhile]⟩
    · exact absurd rfl hnone

theorem numeral_eq (cs : List Char) :
    let whole := cs.takeWhile Char.isDigit
    let fraction := pointedDigits (cs.dropWhile Char.isDigit)
    numeral cs = behindDigits whole fraction (plainText whole fraction).length
      (cs.drop (plainText whole fraction).length) := by
  intro whole fraction
  rw [length_plainText]
  rfl

theorem ne_nil_of_startsNumeral {cs : List Char} (h : startsNumeral cs = true) :
    cs.takeWhile Char.isDigit ≠ [] ∨ pointedDigits (cs.dropWhile Char.isDigit) ≠ [] := by
  unfold startsNumeral at h
  split at h
  · rename_i d ds
    refine .inr fun hnone => ?_
    have htake : (d :: ds).takeWhile Char.isDigit = [] := hnone
    rw [List.takeWhile_cons, if_pos h] at htake
    cases htake
  · rename_i c cs _
    refine .inl ?_
    rw [List.takeWhile_cons, if_pos h]
    exact List.cons_ne_nil _ _
  · cases h

/-- **The digits at the beginning of a text, with a point among them, are as many as there can
be.** -/
theorem exists_mantissa (cs : List Char) : ∃ whole fraction tail,
    cs = plainText whole fraction ++ tail ∧ IsDigits whole ∧ IsDigits fraction ∧
    numeral cs = behindDigits whole fraction (plainText whole fraction).length tail ∧
    (startsNumeral cs = true → whole ≠ [] ∨ fraction ≠ []) ∧
    ∀ ds es rest, IsDigits ds → IsDigits es → cs = plainText ds es ++ rest →
      (plainText ds es).length ≤ (plainText whole fraction).length := by
  obtain ⟨tail, htail⟩ := exists_pointedDigits_append (cs.dropWhile Char.isDigit)
  have hsplit : cs = plainText (cs.takeWhile Char.isDigit)
      (pointedDigits (cs.dropWhile Char.isDigit)) ++ tail := by
    rw [plainText, List.append_assoc, ← htail, List.takeWhile_append_dropWhile]
  refine ⟨_, _, tail, hsplit, fun d => List.mem_takeWhile_imp, isDigits_pointedDigits _, ?_,
    ne_nil_of_startsNumeral, fun ds es rest hds hes hcs => ?_⟩
  · have hdrop := congrArg (List.drop (plainText (cs.takeWhile Char.isDigit)
      (pointedDigits (cs.dropWhile Char.isDigit))).length) hsplit
    rw [List.drop_left] at hdrop
    exact (numeral_eq cs).trans (congrArg _ hdrop)
  · rw [length_plainText, length_plainText]
    by_cases hnone : es = []
    · rw [plainText, if_pos hnone, List.append_nil] at hcs
      have hle := length_le_takeWhile hds rest
      rw [← hcs] at hle
      rw [if_pos hnone]
      omega
    · have hpoint : ∀ c ∈ ('.' :: (es ++ rest)).head?, c.isDigit = false := by
        rintro c ⟨rfl⟩
        rfl
      have hle := length_le_takeWhile hes rest
      have hpos := List.length_pos_of_ne_nil hnone
      rw [plainText, if_neg hnone, List.append_assoc, List.cons_append] at hcs
      have hpointed : pointedDigits ('.' :: (es ++ rest)) = (es ++ rest).takeWhile Char.isDigit :=
        rfl
      rw [hcs, takeWhile_append hds hpoint, dropWhile_append hds hpoint, hpointed, if_neg hnone,
        if_neg (List.ne_nil_of_length_pos (Nat.lt_of_lt_of_le hpos hle))]
      omega

/-- **A numeral that is read is the longest one there, and its parts are those of its text.** -/
theorem numeral_eq_ok {cs : List Char} {n : Numeral} {width : Nat}
    (hstart : startsNumeral cs = true) (h : numeral cs = .ok (n, width)) :
    ∃ text rest, cs = text ++ rest ∧ text.length = width ∧ text ∈ numerals ∧
      Numeral.ofText? text = some n ∧
      ∀ text' rest', cs = text' ++ rest' → text' ∈ numerals → text'.length ≤ width := by
  obtain ⟨whole, fraction, tail, hcs, hwhole, hfraction, hnumeral, hne, hlongest⟩ :=
    exists_mantissa cs
  obtain ⟨text, rest, rfl, rfl, htext, hparts⟩ := behindDigits_eq_ok (hnumeral.symm.trans h)
  have hhead : ∀ c ∈ text.head?, c.isDigit = false ∧ c ≠ '.' := by
    rcases htext with rfl | hmem
    · exact nofun
    · have hmem' := head?_of_mem_exponents hmem []
      rwa [List.append_nil] at hmem'
  refine ⟨plainText whole fraction ++ text, rest, ?_, List.length_append, ?_, ?_, ?_⟩
  · rw [hcs, List.append_assoc]
  · exact mem_numerals.mpr ⟨_, _, _, rfl, hwhole, hfraction, hne hstart, htext⟩
  · rw [ofText?_append hwhole hfraction (hne hstart) hhead, hparts]
  · intro text' rest' hcs' htext'
    obtain ⟨ds, es, tail, rfl, hds, hes, -, htail⟩ := mem_numerals.mp htext'
    rw [List.append_assoc] at hcs'
    rcases htail with rfl | hmem
    · rw [List.append_nil]
      exact Nat.le_add_right_of_le (hlongest ds es _ hds hes hcs')
    · -- With an exponent behind them, the digits are those that are found.
      rw [hcs', numeral_append hds hes (head?_of_mem_exponents hmem rest')] at h
      rw [List.length_append]
      exact le_of_behindDigits_eq_ok hmem h

theorem pos_of_numeral {cs : List Char} {n : Numeral} {width : Nat}
    (hstart : startsNumeral cs = true) (h : numeral cs = .ok (n, width)) : 0 < width := by
  obtain ⟨text, rest, -, rfl, hmem, -⟩ := numeral_eq_ok hstart h
  obtain ⟨c, ds, rfl, -⟩ := head_of_mem_numerals hmem
  exact Nat.succ_pos _

theorem numeral_eq_error {cs : List Char} {width : Nat} (h : numeral cs = .error width) :
    ∃ text rest, cs = text ++ rest ∧ text.length = width ∧ IsAscii text := by
  obtain ⟨whole, fraction, tail, hcs, hwhole, hfraction, hnumeral, -⟩ := exists_mantissa cs
  rw [hnumeral] at h
  exact ⟨_, tail, hcs, (behindDigits_eq_error h).symm, isAscii_plainText hwhole hfraction⟩

/-- A numeral is read as the number that its parts denote. -/
theorem read?_of_mem_numerals {text : List Char} (h : text ∈ numerals) :
    read? text = (Numeral.ofText? text).map Numeral.value := by
  obtain ⟨c, cs, rfl, hdigit | rfl⟩ := head_of_mem_numerals h
  · rw [read?_of_isDigit hdigit, readUnsigned?_of_isDigit hdigit]
  · have hne (d : Char) (ds : List Char) (hd : d ≠ '.') :
        String.ofList (('.' :: cs).map Char.toLower) ≠ String.ofList (d :: ds) := fun heq =>
      hd (List.cons.inj (String.ofList_injective heq)).1.symm
    have hinf := hne 'i' ['n', 'f'] (by decide)
    have hinfinity := hne 'i' ['n', 'f', 'i', 'n', 'i', 't', 'y'] (by decide)
    have hnan := hne 'n' ['a', 'n'] (by decide)
    show readUnsigned? ('.' :: cs) = _
    unfold readUnsigned?
    simp only
    rw [if_neg (not_or.mpr ⟨hinf, hinfinity⟩), if_neg hnan]

end GrammarArt.Expression
