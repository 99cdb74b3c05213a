import GrammarArt.Proofs.Expression.Lexing
import Mathlib.Computability.Language

/-! # The languages of the tokens

The texts of each kind of token form a regular language (`Lexeme.language`), which is written
down here as an expression for it is: a product for one thing behind another one, a sum for a
choice, and `1 + l` for an `l` that can be left out.  A text is in one of these languages if it is
put together of digits, signs and letters as the lemmas on membership tell (`mem_names`,
`mem_numerals`); so its characters are ASCII, and the first of them is not blank.
-/
namespace GrammarArt.Expression

open Text Binary32
open scoped Computability

/-! ### Languages -/

/-- The texts of a single character that passes a test. -/
def single (p : Char → Bool) : Language Char := {cs | ∃ c, p c = true ∧ cs = [c]}

/-- The language `[A-Za-z_][A-Za-z0-9_]*`. -/
def names : Language Char := single isNameStart * (single isNamePart)∗

/-- The language `[0-9]+`. -/
def digits : Language Char := single Char.isDigit * (single Char.isDigit)∗

/-- The language `[0-9]+(.[0-9]+)?` or `.[0-9]+`. -/
def mantissas : Language Char := digits * (1 + {['.']} * digits) + {['.']} * digits

/-- The language `[eE][+-]?[0-9]+`. -/
def exponents : Language Char := {['e'], ['E']} * ((1 + {['+'], ['-']}) * digits)

/-- The language `[0-9]+(.[0-9]+)?([eE][+-]?[0-9]+)?` or `.[0-9]+([eE][+-]?[0-9]+)?`. -/
def numerals : Language Char := mantissas * (1 + exponents)

/-- The texts of the tokens of a kind. -/
def Lexeme.language : Lexeme → Language Char
  | name _ => names
  | number _ => numerals
  | openParen => {['(']}
  | closeParen => {[')']}
  | comma => {[',']}
  | minus => {['-']}
  | endOfText => 1

/-- What a token carries: a name its own text, and a number the value that its text denotes, which
is finite and not negative. -/
def Lexeme.Carries : Lexeme → List Char → Prop
  | name text, cs => text = String.ofList cs
  | number value, cs => read? cs = some value ∧ value.isFinite = true ∧ 0 ≤ value
  | _, _ => True

section
variable {p q : Char → Bool} {cs : List Char}

theorem mem_kstar_single : cs ∈ (single p)∗ ↔ ∀ c ∈ cs, p c = true := by
  rw [Language.mem_kstar]
  constructor
  · rintro ⟨parts, rfl, hparts⟩ c hc
    obtain ⟨part, hpart, hmem⟩ := List.mem_flatten.mp hc
    obtain ⟨d, hd, rfl⟩ := hparts part hpart
    rwa [List.mem_singleton.mp hmem]
  · intro h
    refine ⟨cs.map ([·]), ?_, fun part hpart => ?_⟩
    · rw [← List.flatMap_def, List.flatMap_singleton']
    · obtain ⟨c, hc, rfl⟩ := List.mem_map.mp hpart
      exact ⟨c, h c hc, rfl⟩

theorem mem_single_mul : cs ∈ single p * (single q)∗ ↔
    ∃ c ds, cs = c :: ds ∧ p c = true ∧ ∀ d ∈ ds, q d = true := by
  rw [Language.mem_mul]
  constructor
  · rintro ⟨_, ⟨c, hc, rfl⟩, ds, hds, rfl⟩
    exact ⟨c, ds, rfl, hc, mem_kstar_single.mp hds⟩
  · rintro ⟨c, ds, rfl, hc, hds⟩
    exact ⟨[c], ⟨c, hc, rfl⟩, ds, mem_kstar_single.mpr hds, rfl⟩

theorem mem_digits : cs ∈ digits ↔ cs ≠ [] ∧ IsDigits cs := by
  rw [digits, mem_single_mul]
  constructor
  · rintro ⟨c, ds, rfl, hc, hds⟩
    exact ⟨List.cons_ne_nil c ds, List.forall_mem_cons.mpr ⟨hc, hds⟩⟩
  · rintro ⟨hne, hdigits⟩
    obtain ⟨c, ds, rfl⟩ := List.exists_cons_of_ne_nil hne
    exact ⟨c, ds, rfl, List.forall_mem_cons.mp hdigits⟩

theorem mem_mantissas : cs ∈ mantissas ↔ ∃ whole fraction, cs = plainText whole fraction ∧
    IsDigits whole ∧ IsDigits fraction ∧ (whole ≠ [] ∨ fraction ≠ []) := by
  have hpoint {ds : List Char} :
      ds ∈ ({['.']} : Language Char) * digits ↔ ∃ fraction ∈ digits, '.' :: fraction = ds := by
    simp only [Language.mem_mul]
    exact ⟨fun ⟨_, rfl, h⟩ => h, fun h => ⟨_, rfl, h⟩⟩
  rw [mantissas, Language.mem_add, Language.mem_mul, hpoint]
  constructor
  · rintro (⟨whole, hwhole, tail, htail, rfl⟩ | ⟨fraction, hfraction, rfl⟩)
    · obtain ⟨hne, hdigits⟩ := mem_digits.mp hwhole
      rcases Language.mem_add _ _ _ |>.mp htail with rfl | htail
      · exact ⟨whole, [], by simp [plainText], hdigits, nofun, .inl hne⟩
      · obtain ⟨fraction, hfraction, rfl⟩ := hpoint.mp htail
        obtain ⟨hne', hdigits'⟩ := mem_digits.mp hfraction
        exact ⟨whole, fraction, by simp [plainText, hne'], hdigits, hdigits', .inl hne⟩
    · obtain ⟨hne, hdigits⟩ := mem_digits.mp hfraction
      exact ⟨[], fraction, by simp [plainText, hne], nofun, hdigits, .inr hne⟩
  · rintro ⟨whole, fraction, rfl, hwhole, hfraction, hne⟩
    by_cases hnone : whole = []
    · subst hnone
      have hsome := hne.resolve_left (fun h => h rfl)
      exact .inr ⟨fraction, mem_digits.mpr ⟨hsome, hfraction⟩, by simp [plainText, hsome]⟩
    · refine .inl ⟨whole, mem_digits.mpr ⟨hnone, hwhole⟩, _, ?_, rfl⟩
      rw [Language.mem_add]
      split
      · exact .inl rfl
      · rename_i hsome
        exact .inr (hpoint.mpr ⟨fraction, mem_digits.mpr ⟨hsome, hfraction⟩, rfl⟩)

/-- The signs that can stand in front of the digits of an exponent. -/
def IsSign (cs : List Char) : Prop := cs = [] ∨ cs = ['+'] ∨ cs = ['-']

theorem mem_exponents : cs ∈ exponents ↔ ∃ e sign ds, cs = e :: (sign ++ ds) ∧
    (e = 'e' ∨ e = 'E') ∧ IsSign sign ∧ ds ≠ [] ∧ IsDigits ds := by
  rw [exponents, Language.mem_mul]
  constructor
  · rintro ⟨_, hletter, _, htail, rfl⟩
    obtain ⟨sign, hsign, ds, hds, rfl⟩ := Language.mem_mul.mp htail
    rcases hletter with rfl | rfl
    · exact ⟨'e', sign, ds, rfl, .inl rfl, hsign, mem_digits.mp hds⟩
    · exact ⟨'E', sign, ds, rfl, .inr rfl, hsign, mem_digits.mp hds⟩
  · rintro ⟨e, sign, ds, rfl, he, hsign, hds⟩
    refine ⟨[e], ?_, sign ++ ds, ?_, rfl⟩
    · rcases he with rfl | rfl
      · exact .inl rfl
      · exact .inr rfl
    · exact Language.mem_mul.mpr ⟨sign, hsign, ds, mem_digits.mpr hds, rfl⟩

theorem mem_numerals : cs ∈ numerals ↔ ∃ whole fraction tail,
    cs = plainText whole fraction ++ tail ∧ IsDigits whole ∧ IsDigits fraction ∧
      (whole ≠ [] ∨ fraction ≠ []) ∧ (tail = [] ∨ tail ∈ exponents) := by
  simp only [numerals, Language.mem_mul, mem_mantissas]
  constructor
  · rintro ⟨_, ⟨whole, fraction, rfl, hwhole, hfraction, hne⟩, tail, htail, rfl⟩
    exact ⟨whole, fraction, tail, rfl, hwhole, hfraction, hne, htail⟩
  · rintro ⟨whole, fraction, tail, rfl, hwhole, hfraction, hne, htail⟩
    exact ⟨_, ⟨whole, fraction, rfl, hwhole, hfraction, hne⟩, tail, htail, rfl⟩

theorem mem_names : cs ∈ names ↔ IsName cs := by
  rw [names, mem_single_mul]
  constructor
  · rintro ⟨c, ds, rfl, hc, hds⟩
    refine ⟨hc, List.all_eq_true.mpr (List.forall_mem_cons.mpr ⟨?_, hds⟩)⟩
    exact isNamePart_iff.mpr (.inl hc)
  · rintro ⟨hstart, hparts⟩
    cases cs with
    | nil => cases hstart
    | cons c ds =>
      exact ⟨c, ds, rfl, hstart, (List.forall_mem_cons.mp (List.all_eq_true.mp hparts)).2⟩

end

theorem mem_names_takeWhile {c : Char} (hc : isNameStart c = true) (cs : List Char) :
    c :: cs.takeWhile isNamePart ∈ names :=
  mem_single_mul.mpr ⟨c, _, rfl, hc, fun _ => List.mem_takeWhile_imp⟩

/-! ### Characters of tokens -/

theorem isAscii_of_mem_names {text : List Char} (h : text ∈ names) : IsAscii text := by
  rw [mem_names] at h
  intro c hc
  have hle := (toNat_of_isNamePart (h.isNamePart c hc)).2
  omega

theorem head_of_mem_numerals {text : List Char} (h : text ∈ numerals) :
    ∃ c cs, text = c :: cs ∧ (c.isDigit = true ∨ c = '.') := by
  rw [mem_numerals] at h
  obtain ⟨whole, fraction, tail, rfl, hwhole, -, hne, -⟩ := h
  cases whole with
  | nil =>
    rw [plainText, if_neg (hne.resolve_left fun hnil => hnil rfl)]
    exact ⟨'.', _, rfl, .inr rfl⟩
  | cons c whole => exact ⟨c, _, rfl, .inl (hwhole c List.mem_cons_self)⟩

theorem isAscii_of_mem_numerals {text : List Char} (h : text ∈ numerals) : IsAscii text := by
  rw [mem_numerals] at h
  obtain ⟨whole, fraction, tail, rfl, hwhole, hfraction, -, htail⟩ := h
  refine isAscii_append.mpr ⟨isAscii_plainText hwhole hfraction, ?_⟩
  rcases htail with rfl | hmem
  · exact nofun
  · rw [mem_exponents] at hmem
    obtain ⟨e, sign, ds, rfl, he, hsign, -, hds⟩ := hmem
    have hletter : e.toNat < 128 := by
      rcases he with rfl | rfl
      · decide
      · decide
    refine isAscii_cons.mpr ⟨hletter, isAscii_append.mpr ⟨?_, isAscii_digits hds⟩⟩
    rcases hsign with rfl | rfl | rfl
    · exact nofun
    · exact isAscii_cons.mpr ⟨by decide, nofun⟩
    · exact isAscii_cons.mpr ⟨by decide, nofun⟩

/-- An exponent is told apart from digits, and from a point, by its first character. -/
theorem head?_of_mem_exponents {text : List Char} (h : text ∈ exponents) (rest : List Char) :
    ∀ c ∈ (text ++ rest).head?, c.isDigit = false ∧ c ≠ '.' := by
  rw [mem_exponents] at h
  obtain ⟨e, sign, ds, rfl, rfl | rfl, -⟩ := h
  · rintro c ⟨rfl⟩
    decide
  · rintro c ⟨rfl⟩
    decide

theorem language_of_signOf? {c : Char} {lexeme : Lexeme} (h : signOf? c = some lexeme) :
    lexeme.language = {[c]} ∧ lexeme.Carries [c] := by
  unfold signOf? at h
  split at h
  · cases h
    exact ⟨rfl, trivial⟩
  · cases h
    exact ⟨rfl, trivial⟩
  · cases h
    exact ⟨rfl, trivial⟩
  · cases h
    exact ⟨rfl, trivial⟩
  · cases h

/-- The characters of all tokens are ASCII. -/
theorem Lexeme.isAscii_of_mem {lexeme : Lexeme} {text : List Char}
    (h : text ∈ lexeme.language) : IsAscii text := by
  cases lexeme with
  | name => exact isAscii_of_mem_names h
  | number => exact isAscii_of_mem_numerals h
  | openParen | closeParen | comma | minus =>
    obtain rfl : text = [_] := h
    exact isAscii_cons.mpr ⟨by decide, nofun⟩
  | endOfText =>
    obtain rfl : text = [] := h
    exact nofun

/-- No token begins with a blank character. -/
theorem Lexeme.isBlank_of_mem {lexeme : Lexeme} {c : Char} {cs : List Char}
    (h : c :: cs ∈ lexeme.language) : isBlank c = false := by
  cases lexeme with
  | name => exact isBlank_of_isNamePart ((mem_names.mp h).isNamePart c List.mem_cons_self)
  | number =>
    obtain ⟨d, ds, heq, hd⟩ := head_of_mem_numerals h
    obtain ⟨rfl, -⟩ := List.cons.inj heq
    rcases hd with hdigit | rfl
    · exact isBlank_of_isNamePart (isNamePart_iff.mpr (.inr hdigit))
    · decide
  | openParen | closeParen | comma | minus =>
    obtain ⟨rfl, -⟩ := List.cons.inj (h : c :: cs = [_])
    decide
  | endOfText => cases (h : c :: cs = [])

end GrammarArt.Expression
