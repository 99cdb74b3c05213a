import GrammarArt.Expression.Token
import GrammarArt.Kind
import GrammarArt.Proofs.Binary32.Decimal
import GrammarArt.Proofs.Text.Plain

/-! # Texts with known tokens

A text that is put together of names, numerals, signs and blanks has the tokens of its parts,
as long as no name or numeral is followed by something that it would run on into (`Ends`).
`Lexes` says which tokens a text has in front of whatever may follow it, so that it can be
proved of a text part by part.
-/
namespace GrammarArt.Expression

open Text Binary32

/-! ### Characters -/

theorem isDigit_iff {c : Char} : c.isDigit = true ↔ 48 ≤ c.toNat ∧ c.toNat ≤ 57 := by
  simp only [Char.isDigit, Bool.and_eq_true, decide_eq_true_eq, UInt32.le_iff_toNat_le, GE.ge]
  rfl

theorem isNameStart_iff {c : Char} : isNameStart c = true ↔
    (65 ≤ c.toNat ∧ c.toNat ≤ 90 ∨ 97 ≤ c.toNat ∧ c.toNat ≤ 122) ∨ c.toNat = 95 := by
  simp only [isNameStart, Char.isAlpha, Char.isUpper, Char.isLower, Bool.or_eq_true,
    Bool.and_eq_true, decide_eq_true_eq, UInt32.le_iff_toNat_le, GE.ge, ← Char.toNat_inj]
  rfl

theorem isNamePart_iff {c : Char} :
    isNamePart c = true ↔ isNameStart c = true ∨ c.isDigit = true := by
  simp only [isNamePart, isNameStart, Char.isAlphanum, Bool.or_eq_true]
  exact or_right_comm

theorem toNat_of_isNamePart {c : Char} (h : isNamePart c = true) :
    48 ≤ c.toNat ∧ c.toNat ≤ 122 := by
  rcases isNamePart_iff.mp h with hstart | hdigit
  · have hc := isNameStart_iff.mp hstart
    omega
  · have hc := isDigit_iff.mp hdigit
    omega

theorem isBlank_of_isNamePart {c : Char} (h : isNamePart c = true) : isBlank c = false := by
  have hc := toNat_of_isNamePart h
  simp [isBlank, blankRanges]
  omega

/-- A point is no part of a name. -/
theorem ne_point_of_isNamePart {c : Char} (h : isNamePart c = true) : c ≠ '.' := by
  rintro rfl
  exact absurd h (by decide)

theorem isDigit_of_isNameStart {c : Char} (h : isNameStart c = true) : c.isDigit = false := by
  have hc := isNameStart_iff.mp h
  rw [Bool.eq_false_iff, ne_eq, isDigit_iff]
  omega

theorem startsNumeral_cons {c : Char} (hc : c ≠ '.') (cs : List Char) :
    startsNumeral (c :: cs) = c.isDigit := by
  unfold startsNumeral
  split
  · rename_i heq
    exact absurd (List.cons.inj heq).1 hc
  · rename_i heq
    rw [(List.cons.inj heq).1]
  · rename_i heq
    cases heq

/-! ### What may follow a token -/

/-- A name or a numeral ends in front of this text. -/
def Ends (rest : List Char) : Prop := ∀ c ∈ rest.head?, isNamePart c = false ∧ c ≠ '.'

theorem ends_nil : Ends [] := nofun

theorem ends_cons {c : Char} {cs : List Char} (h : isNamePart c = false ∧ c ≠ '.') :
    Ends (c :: cs) := by
  rintro d ⟨rfl⟩
  exact h

theorem Ends.append {cs rest : List Char} (hcs : Ends cs) (hrest : Ends rest) :
    Ends (cs ++ rest) := by
  cases cs with
  | nil => exact hrest
  | cons c cs => exact hcs

theorem Ends.isDigit {rest : List Char} (h : Ends rest) :
    ∀ c ∈ rest.head?, c.isDigit = false := fun c hc =>
  Bool.eq_false_iff.mpr fun hdigit =>
    Bool.eq_false_iff.mp (h c hc).1 (isNamePart_iff.mpr (Or.inr hdigit))

/-- All characters of a class are taken, up to the first that is not of the class. -/
theorem takeWhile_append {p : Char → Bool} {cs rest : List Char} (hcs : ∀ c ∈ cs, p c = true)
    (hrest : ∀ c ∈ rest.head?, p c = false) : (cs ++ rest).takeWhile p = cs := by
  rw [List.takeWhile_append_of_pos hcs]
  cases rest with
  | nil => rw [List.takeWhile_nil, List.append_nil]
  | cons c rest =>
    rw [List.takeWhile_cons, if_neg (by simp [hrest c rfl]), List.append_nil]

theorem dropWhile_append {p : Char → Bool} {cs rest : List Char} (hcs : ∀ c ∈ cs, p c = true)
    (hrest : ∀ c ∈ rest.head?, p c = false) : (cs ++ rest).dropWhile p = rest := by
  rw [List.dropWhile_append_of_pos hcs]
  cases rest with
  | nil => rfl
  | cons c rest => rw [List.dropWhile_cons, if_neg (by simp [hrest c rfl])]

/-! ### Single tokens -/

theorem scan_cons {c : Char} {cs : List Char} {lexeme : Lexeme} {more : Nat}
    (hblank : isBlank c = false) (hmunch : munch c cs = .ok (lexeme, more)) (offset : Nat) :
    scan offset (c :: cs) = (scan (offset + 1 + more) (cs.drop more)).map
      (⟨lexeme, offset, offset + 1 + more⟩ :: ·) := by
  rw [scan, if_neg (by simp [hblank]), hmunch]
  simp only
  cases scan (offset + 1 + more) (cs.drop more) with
  | error e => rfl
  | ok tokens => rfl

theorem munch_name {c : Char} {cs : List Char} (hc : isNameStart c = true)
    (hcs : ∀ d ∈ cs, isNamePart d = true) {rest : List Char} (hrest : Ends rest) :
    munch c (cs ++ rest) = .ok (.name (String.ofList (c :: cs)), cs.length) := by
  have hpoint := ne_point_of_isNamePart (isNamePart_iff.mpr (.inl hc))
  have htake : (cs ++ rest).takeWhile isNamePart = cs :=
    takeWhile_append hcs fun d hd => (hrest d hd).1
  rw [munch, startsNumeral_cons hpoint, isDigit_of_isNameStart hc,
    if_neg Bool.false_ne_true, if_pos hc, htake]

theorem ne_exponent_of_ends {c : Char} {rest : List Char} (h : Ends (c :: rest)) :
    ¬ (c = 'e' ∨ c = 'E') := by
  have hc := (h c rfl).1
  rintro (rfl | rfl)
  · exact absurd hc (by decide)
  · exact absurd hc (by decide)

/-- A numeral of which the digits have been found, from what follows these. -/
def behindDigits (whole fraction : List Char) (width : Nat) :
    List Char → Except Nat (Numeral × Nat)
  | e :: rest =>
    if e = 'e' ∨ e = 'E' then
      let sign := match rest with
        | '+' :: _ | '-' :: _ => 1
        | _ => 0
      let digits := (rest.drop sign).takeWhile Char.isDigit
      if digits = [] then .error width
      else
        let value : Int := digitsValue digits
        let exponent := if rest.head? = some '-' then -value else value
        .ok (⟨whole, fraction, exponent⟩, width + 1 + sign + digits.length)
    else .ok (⟨whole, fraction, 0⟩, width)
  | [] => .ok (⟨whole, fraction, 0⟩, width)

theorem numeral_append {whole fraction rest : List Char} (hwhole : IsDigits whole)
    (hfraction : IsDigits fraction) (hrest : ∀ c ∈ rest.head?, c.isDigit = false ∧ c ≠ '.') :
    numeral (plainText whole fraction ++ rest) =
      behindDigits whole fraction (plainText whole fraction).length rest := by
  have hdigit : ∀ c ∈ rest.head?, c.isDigit = false := fun c hc => (hrest c hc).1
  by_cases hnone : fraction = []
  · have htake := takeWhile_append hwhole hdigit
    have hdrop := dropWhile_append hwhole hdigit
    have hpoint : ∀ ds, rest = '.' :: ds → False := by
      rintro ds rfl
      exact (hrest '.' rfl).2 rfl
    rw [hnone, plainText, if_pos rfl, List.append_nil, numeral]
    simp only [htake, hdrop, if_true, Nat.add_zero, List.drop_left]
    rfl
  · have hpoint : ∀ c ∈ ('.' :: (fraction ++ rest)).head?, c.isDigit = false := by
      rintro c ⟨rfl⟩
      rfl
    have htake := takeWhile_append hwhole hpoint
    have hdrop := dropWhile_append hwhole hpoint
    have hlength : whole.length + (fraction.length + 1) = (whole ++ '.' :: fraction).length := by
      rw [List.length_append, List.length_cons]
    have hskip : (whole ++ '.' :: (fraction ++ rest)).drop (whole ++ '.' :: fraction).length =
        rest := by
      rw [← List.cons_append, ← List.append_assoc, List.drop_left]
    rw [plainText, if_neg hnone, List.append_assoc, List.cons_append, numeral]
    simp only [htake, hdrop, takeWhile_append hfraction hdigit, if_neg hnone, hlength, hskip]
    rfl

theorem numeral_plainText {whole fraction rest : List Char} (hwhole : IsDigits whole)
    (hfraction : IsDigits fraction) (hrest : Ends rest) :
    numeral (plainText whole fraction ++ rest) =
      .ok (⟨whole, fraction, 0⟩, (plainText whole fraction).length) := by
  rw [numeral_append hwhole hfraction fun c hc => ⟨hrest.isDigit c hc, (hrest c hc).2⟩]
  cases rest with
  | nil => rfl
  | cons c rest => exact if_neg (ne_exponent_of_ends hrest)

/-- A numeral begins with a digit. -/
theorem isDigit_of_plainText {c : Char} {cs whole fraction : List Char}
    (hwhole : IsDigits whole) (hne : whole ≠ []) (hcs : plainText whole fraction = c :: cs) :
    c.isDigit = true := by
  cases whole with
  | nil => exact absurd rfl hne
  | cons d whole =>
    rw [← (List.cons.inj hcs).1]
    exact hwhole d List.mem_cons_self

theorem munch_number {c : Char} {cs whole fraction : List Char} (hwhole : IsDigits whole)
    (hne : whole ≠ []) (hfraction : IsDigits fraction) (hcs : plainText whole fraction = c :: cs)
    (hfinite : (Numeral.value ⟨whole, fraction, 0⟩).isFinite = true) {rest : List Char}
    (hrest : Ends rest) :
    munch c (cs ++ rest) = .ok (.number (Numeral.value ⟨whole, fraction, 0⟩), cs.length) := by
  have hdigit := isDigit_of_plainText hwhole hne hcs
  have hpoint := ne_point_of_isNamePart (isNamePart_iff.mpr (.inr hdigit))
  have hnumeral := numeral_plainText hwhole hfraction hrest
  rw [hcs, List.cons_append] at hnumeral
  rw [munch, startsNumeral_cons hpoint, if_pos hdigit, hnumeral]
  simp only [hfinite, if_true, List.length_cons, Nat.add_sub_cancel]

theorem plain_of_signOf? {c : Char} {lexeme : Lexeme} (h : signOf? c = some lexeme) :
    c.toNat < 128 ∧ isBlank c = false ∧ isNamePart c = false ∧ c ≠ '.' := by
  unfold signOf? at h
  split at h
  · decide
  · decide
  · decide
  · decide
  · cases h

theorem munch_sign {c : Char} {lexeme : Lexeme} (h : signOf? c = some lexeme)
    {cs : List Char} : munch c cs = .ok (lexeme, 0) := by
  obtain ⟨-, -, hpart, hpoint⟩ := plain_of_signOf? h
  rw [Bool.eq_false_iff, ne_eq, isNamePart_iff, not_or] at hpart
  rw [munch, startsNumeral_cons hpoint, if_neg hpart.2, if_neg hpart.1, h]

/-! ### Texts and their tokens -/

/-- An ASCII text with these tokens, whatever follows it that ends a name or a numeral. -/
structure Lexes (cs : List Char) (ls : List Lexeme) : Prop where
  isAscii : IsAscii cs
  scan_eq : ∀ offset rest, Ends rest → ∃ tokens : List Token, tokens.map Token.lexeme = ls ∧
    scan offset (cs ++ rest) = (scan (offset + cs.length) rest).map (tokens ++ ·)

variable {cs ds : List Char} {ls ms : List Lexeme}

theorem lexes_nil : Lexes [] [] where
  isAscii := nofun
  scan_eq := by
    intro offset rest _
    refine ⟨[], rfl, ?_⟩
    show scan offset rest = (scan offset rest).map id
    rw [Except.map_id]
    rfl

theorem Lexes.append (hcs : Lexes cs ls) (hds : Lexes ds ms) (hends : Ends ds) :
    Lexes (cs ++ ds) (ls ++ ms) where
  isAscii := isAscii_append.mpr ⟨hcs.isAscii, hds.isAscii⟩
  scan_eq := by
    intro offset rest hrest
    obtain ⟨tokens, rfl, hscan⟩ := hcs.scan_eq offset (ds ++ rest) (hends.append hrest)
    obtain ⟨tokens', rfl, hscan'⟩ := hds.scan_eq (offset + cs.length) rest hrest
    refine ⟨tokens ++ tokens', List.map_append, ?_⟩
    rw [List.append_assoc, hscan, hscan', List.length_append, ← Nat.add_assoc]
    cases scan (offset + cs.length + ds.length) rest with
    | error e => rfl
    | ok left => exact congrArg Except.ok (List.append_assoc _ _ _).symm

/-- A text that is a single token, wherever it ends. -/
theorem lexes_token {c : Char} {lexeme : Lexeme} (hascii : IsAscii (c :: cs))
    (hblank : isBlank c = false)
    (hmunch : ∀ rest, Ends rest → munch c (cs ++ rest) = .ok (lexeme, cs.length)) :
    Lexes (c :: cs) [lexeme] where
  isAscii := hascii
  scan_eq := by
    intro offset rest hrest
    refine ⟨[⟨lexeme, offset, offset + 1 + cs.length⟩], rfl, ?_⟩
    rw [List.cons_append, scan_cons hblank (hmunch rest hrest), List.drop_left,
      List.length_cons, Nat.add_right_comm, Nat.add_assoc offset]
    rfl

theorem Lexes.sign {c : Char} {lexeme : Lexeme} (hds : Lexes ds ms)
    (hsign : signOf? c = some lexeme) : Lexes (c :: ds) (lexeme :: ms) where
  isAscii := isAscii_cons.mpr ⟨(plain_of_signOf? hsign).1, hds.isAscii⟩
  scan_eq := by
    intro offset rest hrest
    obtain ⟨-, hblank, hpart, hpoint⟩ := plain_of_signOf? hsign
    obtain ⟨tokens, rfl, hscan⟩ := hds.scan_eq (offset + 1) rest hrest
    refine ⟨⟨lexeme, offset, offset + 1⟩ :: tokens, rfl, ?_⟩
    rw [List.cons_append, scan_cons hblank (munch_sign hsign), List.drop_zero, Nat.add_zero,
      hscan, List.length_cons, Nat.add_right_comm, ← Nat.add_assoc, Nat.add_right_comm]
    cases scan (offset + 1 + ds.length) rest with
    | error e => rfl
    | ok left => rfl

theorem Lexes.blank (hds : Lexes ds ms) : Lexes (' ' :: ds) ms where
  isAscii := isAscii_cons.mpr ⟨by decide, hds.isAscii⟩
  scan_eq := by
    intro offset rest hrest
    obtain ⟨tokens, rfl, hscan⟩ := hds.scan_eq (offset + 1) rest hrest
    refine ⟨tokens, rfl, ?_⟩
    rw [List.cons_append, scan, if_pos (by decide), hscan, List.length_cons,
      Nat.add_right_comm, Nat.add_assoc]

/-! ### Names, numbers and lists -/

/-- A name: a character that starts one, and characters that it goes on with. -/
def IsName (cs : List Char) : Prop := cs.head?.any isNameStart = true ∧ cs.all isNamePart = true

theorem isName_kind (k : Kind) : IsName k.name.toList := by
  cases k with
  | var v => cases v <;> exact ⟨by decide, by decide⟩
  | _ => exact ⟨by decide, by decide⟩

theorem IsName.isNamePart (h : IsName cs) : ∀ c ∈ cs, isNamePart c = true :=
  List.all_eq_true.mp h.2

theorem IsName.lexes (h : IsName cs) : Lexes cs [.name (String.ofList cs)] := by
  have hpart := h.isNamePart
  obtain ⟨hstart, -⟩ := h
  cases cs with
  | nil => cases hstart
  | cons c cs =>
    refine lexes_token (fun d hd => ?_) (isBlank_of_isNamePart (hpart c List.mem_cons_self))
      fun rest hrest => munch_name hstart (fun d hd => hpart d (List.mem_cons_of_mem c hd)) hrest
    exact Nat.lt_of_le_of_lt (toNat_of_isNamePart (hpart d hd)).2 (by decide)

theorem isAscii_digits {ds : List Char} (h : IsDigits ds) : IsAscii ds := fun d hd =>
  Nat.lt_of_le_of_lt (isDigit_iff.mp (h d hd)).2 (by decide)

theorem isAscii_plainText {whole fraction : List Char} (hwhole : IsDigits whole)
    (hfraction : IsDigits fraction) : IsAscii (plainText whole fraction) := by
  rw [plainText, isAscii_append]
  refine ⟨isAscii_digits hwhole, ?_⟩
  split
  · exact fun d hd => absurd hd List.not_mem_nil
  · exact isAscii_cons.mpr ⟨by decide, isAscii_digits hfraction⟩

theorem lexes_plainText {whole fraction : List Char} (hwhole : IsDigits whole)
    (hne : whole ≠ []) (hfraction : IsDigits fraction)
    (hfinite : (Numeral.value ⟨whole, fraction, 0⟩).isFinite = true) :
    Lexes (plainText whole fraction) [.number (Numeral.value ⟨whole, fraction, 0⟩)] := by
  have hascii := isAscii_plainText hwhole hfraction
  cases htext : plainText whole fraction with
  | nil => exact absurd (List.append_eq_nil_iff.mp htext).1 hne
  | cons c cs =>
    rw [htext] at hascii
    have hdigit := isDigit_of_plainText hwhole hne htext
    have hblank := isBlank_of_isNamePart (isNamePart_iff.mpr (Or.inr hdigit))
    exact lexes_token hascii hblank fun rest hrest =>
      munch_number hwhole hne hfraction htext hfinite hrest

/-- Texts behind one another, a comma and a blank between any two. -/
theorem lexes_intercalate {texts : List (List Char)} {parts : List (List Lexeme)}
    (h : List.Forall₂ Lexes texts parts) :
    Lexes (List.intercalate [',', ' '] texts) (List.intercalate [.comma] parts) := by
  induction h with
  | nil => exact lexes_nil
  | @cons text part texts parts htext htexts ih =>
    cases htexts with
    | nil => simpa using htext
    | cons hnext hrest =>
      rw [List.intercalate_cons_cons, List.intercalate_cons_cons, List.append_assoc,
        List.append_assoc]
      exact htext.append (ih.blank.sign rfl) (ends_cons (by decide))

/-- The tokens of a whole text. -/
theorem Lexes.lex_eq (h : Lexes cs ls) : ∃ tokens : Tokens,
    tokens.body.map Token.lexeme = ls ∧ lex (String.ofList cs) = .ok tokens := by
  obtain ⟨tokens, rfl, hscan⟩ := h.scan_eq 0 [] ends_nil
  refine ⟨⟨tokens, cs.length⟩, rfl, ?_⟩
  rw [List.append_nil, scan] at hscan
  rw [lex, bytes_of_isAscii h.isAscii, hscan]
  simp [Except.map, bind, Except.bind, pure, Except.pure]

end GrammarArt.Expression
