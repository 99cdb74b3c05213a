import GrammarArt.Json.Printer
import GrammarArt.Json.Reader
import GrammarArt.Proofs.Binary32.Numeral
import GrammarArt.Proofs.Expression.Lexing

/-! # Written values and their tokens

The text of a value has the tokens of the value, whatever follows it that ends a numeral
(`WellFormed.lexes_text`).  All strings are told from their escapes, those that spell no text
included (`lexes_stringText`); of the numbers, it is enough that each one is a numeral.
-/
namespace GrammarArt.Json

open Binary32 (IsDigits IsNumberPart plainText scientificText wholeText isDigits_toDigits Numeral)

variable {cs ds rest : List Char} {ts us : List Token}

/-! ### Strings -/

theorem hexUnit?_hexByte : ∀ n < 0x20,
    hexUnit? '0' '0' (Nat.digitChar (n / 16)) (Nat.digitChar (n % 16)) = some n := by decide

/-- A unit that is no half of a pair spells its character, whatever comes next. -/
theorem spell_code {n : Nat} (hn : n < 0xD800) (parts : List StringPart) :
    spell (.code n :: parts) = (spell parts).map (Char.ofNat n :: ·) := by
  have hhigh : isHighHalf n = false := by simp [isHighHalf, Nat.not_le.mpr hn]
  have hlow : isLowHalf n = false := by simp [isLowHalf, Nat.not_le.mpr (Nat.lt_trans hn (by decide : 0xD800 < 0xDC00))]
  cases parts with
  | nil => simp [spell, hhigh, hlow]
  | cons part parts =>
    cases part with
    | char c => simp [spell, hhigh, hlow]
    | code m => simp [spell, hhigh, hlow]

/-- A character as it is written is read as a part of a string that spells it. -/
theorem exists_readParts_escape (c : Char) :
    ∃ part, (∀ parts, spell (part :: parts) = (spell parts).map (c :: ·)) ∧
      ∀ cs, readParts (escape c ++ cs) =
        (readParts cs).map fun (parts, width) => (part :: parts, width + (escape c).length) := by
  have hletter {c e : Char} (he : e ≠ 'u') (hescaped : escaped? e = some c) :
      ∃ part, (∀ parts, spell (part :: parts) = (spell parts).map (c :: ·)) ∧
        ∀ cs, readParts ('\\' :: e :: cs) =
          (readParts cs).map fun (parts, width) => (part :: parts, width + 2) := by
    refine ⟨.char c, fun parts => by rw [spell], fun cs => ?_⟩
    rw [readParts, hescaped]
    · cases readParts cs <;> rfl
    · rintro _ _ _ _ _ rfl
      exact absurd rfl he
  unfold escape
  split
  · exact hletter (by decide) rfl
  · exact hletter (by decide) rfl
  · exact hletter (by decide) rfl
  · exact hletter (by decide) rfl
  · exact hletter (by decide) rfl
  · exact hletter (by decide) rfl
  · exact hletter (by decide) rfl
  · rename_i hquote hbackslash _ _ _ _ _
    split
    · rename_i hcontrol
      refine ⟨.code c.toNat, fun parts => ?_, fun cs => ?_⟩
      · rw [spell_code (Nat.lt_trans hcontrol (by decide)), Char.ofNat_toNat]
      · simp only [hexByte, List.cons_append, List.nil_append]
        rw [readParts, hexUnit?_hexByte _ hcontrol]
        cases readParts cs <;> rfl
    · rename_i hcontrol
      refine ⟨.char c, fun parts => by rw [spell], fun cs => ?_⟩
      show readParts (c :: cs) = _
      rw [readParts, if_neg hcontrol]
      · rfl
      · exact hquote
      · rintro _ _ _ _ _ rfl
        exact absurd rfl hbackslash
      · rintro _ _ rfl
        exact absurd rfl hbackslash

/-- The parts of a written text, up to the quote that closes it. -/
theorem exists_readParts (cs rest : List Char) :
    ∃ parts, spell parts = some cs ∧
      readParts (cs.flatMap escape ++ '"' :: rest) =
        some (parts, (cs.flatMap escape).length + 1) := by
  induction cs with
  | nil => exact ⟨[], rfl, rfl⟩
  | cons c cs ih =>
    obtain ⟨parts, hspell, hread⟩ := ih
    obtain ⟨part, hpart, hescape⟩ := exists_readParts_escape c
    refine ⟨part :: parts, by rw [hpart, hspell]; rfl, ?_⟩
    rw [List.flatMap_cons, List.append_assoc, hescape, hread, List.length_append]
    simp only [Option.map_some, Option.some.injEq, Prod.mk.injEq, true_and]
    omega

/-! ### Texts and their tokens -/

/-- A text that ends a numeral in front of it. -/
def Ends (rest : List Char) : Prop := ∀ c ∈ rest.head?, ¬ IsNumberPart c

instance (c : Char) : Decidable (IsNumberPart c) := inferInstanceAs (Decidable (_ ∨ _))

theorem ends_nil : Ends [] := nofun

theorem ends_cons {c : Char} (h : ¬ IsNumberPart c) : Ends (c :: cs) := by
  rintro _ ⟨rfl⟩
  exact h

theorem Ends.append (hds : Ends ds) (hrest : Ends rest) : Ends (ds ++ rest) := by
  cases ds with
  | nil => exact hrest
  | cons c ds => exact hds

/-- The text has these tokens, whatever follows it that ends a numeral. -/
def Lexes (cs : List Char) (ts : List Token) : Prop :=
  ∀ rest, Ends rest → lex (cs ++ rest) = (lex rest).map (ts ++ ·)

theorem Lexes.append (hcs : Lexes cs ts) (hds : Lexes ds us) (hends : Ends ds) :
    Lexes (cs ++ ds) (ts ++ us) := by
  intro rest hrest
  rw [List.append_assoc, hcs _ (hends.append hrest), hds _ hrest, Option.map_map]
  exact congrArg (fun f => (lex rest).map f) (funext fun us' => (List.append_assoc _ _ _).symm)

/-- A token at the front of a text. -/
theorem lex_token {c : Char} {token : Token} (hblank : isBlank c = false)
    (hmunch : munch c (cs ++ rest) = some (token, cs.length)) :
    lex (c :: cs ++ rest) = (lex rest).map (token :: ·) := by
  rw [List.cons_append, lex, if_neg (by simp [hblank]), hmunch]
  show (lex ((cs ++ rest).drop cs.length)).map _ = _
  rw [List.drop_left]

theorem lexes_token {c : Char} {token : Token} (hblank : isBlank c = false)
    (hmunch : ∀ rest, Ends rest → munch c (cs ++ rest) = some (token, cs.length)) :
    Lexes (c :: cs) [token] := fun rest hrest => lex_token hblank (hmunch rest hrest)

/-- A character that is a token by itself. -/
theorem Lexes.sign {c : Char} {token : Token} (hds : Lexes ds us)
    (h : isBlank c = false ∧ ∀ cs, munch c cs = some (token, 0)) :
    Lexes (c :: ds) (token :: us) := by
  intro rest hrest
  have hlex : lex (c :: ([] ++ (ds ++ rest))) = _ := lex_token h.1 (h.2 _)
  rw [List.nil_append] at hlex
  rw [List.cons_append, hlex, hds rest hrest, Option.map_map]
  rfl

theorem lexes_stringText (s : Option String) : Lexes (stringText s) [.string s] := by
  have hmunch (parts : List StringPart) (cs rest : List Char)
      (hread : readParts (cs ++ rest) = some (parts, cs.length)) :
      munch '"' (cs ++ rest) = some (.string ((spell parts).map String.ofList), cs.length) := by
    rw [munch, hread]
    rfl
  cases s with
  | none => exact lexes_token rfl fun rest _ => hmunch [.code 0xd800] _ rest rfl
  | some text =>
    refine lexes_token rfl fun rest _ => ?_
    obtain ⟨parts, hspell, hread⟩ := exists_readParts text.toList rest
    have h := hmunch parts (text.toList.flatMap escape ++ ['"']) rest
      (by rw [List.append_assoc, List.length_append]; exact hread)
    rwa [hspell, Option.map_some, String.ofList_toList] at h

/-! ### Numerals -/

/-- The text is a numeral, whatever follows it that ends one. -/
structure IsNumeral (cs : List Char) : Prop where
  begins : ∃ c ∈ cs.head?, c.isDigit = true ∨ c = '-'
  read : ∀ rest, Ends rest → numeral? (cs ++ rest) = some cs

/-- Digits of a whole part: there are some, and zero is the only one that begins with it. -/
structure IsWhole (ds : List Char) : Prop where
  digits : IsDigits ds
  ne_nil : ds ≠ []
  zero : ds.head? = some '0' → ds = ['0']

theorem Ends.isDigit (h : Ends rest) : ∀ c ∈ rest.head?, c.isDigit = false := fun c hc =>
  Bool.eq_false_iff.mpr fun hdigit => h c hc (.inl hdigit)

theorem digits?_append (hds : IsDigits ds) (hne : ds ≠ [])
    (hrest : ∀ c ∈ rest.head?, c.isDigit = false) : digits? (ds ++ rest) = some ds := by
  rw [digits?, Expression.takeWhile_append hds hrest]
  split
  · exact absurd rfl hne
  · rfl

theorem whole?_append (h : IsWhole ds) (hrest : ∀ c ∈ rest.head?, c.isDigit = false) :
    whole? (ds ++ rest) = some ds := by
  rw [whole?, digits?_append h.digits h.ne_nil hrest]
  split
  · rename_i heq
    exact heq.symm
  · rename_i hne heq
    cases heq
    cases h.zero rfl
    exact absurd rfl hne
  · rfl

theorem fraction?_append (hds : IsDigits ds) (hne : ds ≠ [])
    (hrest : ∀ c ∈ rest.head?, c.isDigit = false) :
    fraction? ('.' :: (ds ++ rest)) = some ('.' :: ds) := by
  rw [fraction?, digits?_append hds hne hrest]
  rfl

theorem fraction?_of_ne (h : ∀ c ∈ cs.head?, c ≠ '.') : fraction? cs = some [] := by
  unfold fraction?
  split
  · exact absurd rfl (h '.' rfl)
  · rfl

theorem exponent?_of_ne (h : ∀ c ∈ cs.head?, c ≠ 'e' ∧ c ≠ 'E') : exponent? cs = some [] := by
  unfold exponent?
  split
  · exact absurd rfl (h 'e' rfl).1
  · exact absurd rfl (h 'E' rfl).2
  · rfl

theorem power?_append (k : Int) (hrest : ∀ c ∈ rest.head?, c.isDigit = false) :
    power? (wholeText k ++ rest) = some (wholeText k) := by
  have hdigits (n : Nat) : digits? (Nat.toDigits 10 n ++ rest) = some (Nat.toDigits 10 n) :=
    digits?_append (isDigits_toDigits n) Nat.toDigits_ne_nil hrest
  cases k with
  | ofNat n =>
    have hhead : ∀ c ∈ (Nat.toDigits 10 n ++ rest).head?, c.isDigit = true := by
      intro c hc
      rw [List.head?_append_of_ne_nil _ Nat.toDigits_ne_nil] at hc
      exact isDigits_toDigits n c (List.mem_of_mem_head? hc)
    rw [wholeText, power?]
    · exact hdigits n
    · intro cs heq
      exact absurd (hhead '-' (by rw [heq]; rfl)) (by decide)
    · intro cs heq
      exact absurd (hhead '+' (by rw [heq]; rfl)) (by decide)
  | negSucc n =>
    rw [wholeText, List.cons_append, power?, hdigits]
    rfl

theorem exponent?_append (k : Int) (hrest : ∀ c ∈ rest.head?, c.isDigit = false) :
    exponent? ('e' :: wholeText k ++ rest) = some ('e' :: wholeText k) := by
  rw [List.cons_append, exponent?, power?_append k hrest]
  rfl

/-- The text is a numeral without a sign, whatever follows it that ends one. -/
structure IsUnsigned (cs : List Char) : Prop where
  begins : ∃ c ∈ cs.head?, c.isDigit = true
  read : ∀ rest, Ends rest → unsigned? (cs ++ rest) = some cs

theorem unsigned?_append {whole fraction : List Char} (exponent : List Char)
    (hwhole : IsWhole whole)
    (hends : ∀ c ∈ (fraction ++ (exponent ++ rest)).head?, c.isDigit = false)
    (hfraction : fraction? (fraction ++ (exponent ++ rest)) = some fraction)
    (hexponent : exponent? (exponent ++ rest) = some exponent) :
    unsigned? (whole ++ fraction ++ exponent ++ rest) = some (whole ++ fraction ++ exponent) := by
  rw [unsigned?, List.append_assoc, List.append_assoc, whole?_append hwhole hends]
  simp only [Option.bind_eq_bind, Option.bind_some, List.drop_left, hfraction,
    ← List.drop_drop, hexponent]
  rfl

theorem IsWhole.begins (h : IsWhole ds) (cs : List Char) :
    ∃ c ∈ (ds ++ cs).head?, c.isDigit = true := by
  obtain ⟨c, ds', rfl⟩ := List.exists_cons_of_ne_nil h.ne_nil
  exact ⟨c, rfl, h.digits c List.mem_cons_self⟩

/-- The fraction of a numeral, with its point, in front of a text that is none of it. -/
theorem fraction?_text {fraction : List Char} (hfraction : IsDigits fraction)
    (hrest : ∀ c ∈ rest.head?, c.isDigit = false ∧ c ≠ '.') :
    fraction? ((if fraction = [] then [] else '.' :: fraction) ++ rest) =
        some (if fraction = [] then [] else '.' :: fraction) ∧
      ∀ c ∈ ((if fraction = [] then [] else '.' :: fraction) ++ rest).head?,
        c.isDigit = false := by
  split
  · exact ⟨fraction?_of_ne fun c hc => (hrest c hc).2, fun c hc => (hrest c hc).1⟩
  · rename_i hne
    refine ⟨fraction?_append hfraction hne fun c hc => (hrest c hc).1, ?_⟩
    rintro c ⟨rfl⟩
    rfl

theorem isUnsigned_plainText {whole fraction : List Char} (hwhole : IsWhole whole)
    (hfraction : IsDigits fraction) : IsUnsigned (plainText whole fraction) := by
  refine ⟨hwhole.begins _, fun rest hrest => ?_⟩
  have hne : ∀ c ∈ rest.head?, c ≠ '.' ∧ c ≠ 'e' ∧ c ≠ 'E' := by
    refine fun c hc => ⟨?_, ?_, ?_⟩
    · rintro rfl
      exact hrest _ hc (by decide)
    · rintro rfl
      exact hrest _ hc (by decide)
    · rintro rfl
      exact hrest _ hc (by decide)
  obtain ⟨htext, hends⟩ := fraction?_text hfraction
    fun c hc => ⟨hrest.isDigit c hc, (hne c hc).1⟩
  have h := unsigned?_append [] hwhole hends htext
    (exponent?_of_ne fun c hc => (hne c hc).2)
  rwa [List.append_nil] at h

theorem isUnsigned_scientificText {n : Numeral} (hwhole : IsWhole n.whole)
    (hfraction : IsDigits n.fraction) : IsUnsigned (scientificText n) := by
  refine ⟨?_, fun rest hrest => ?_⟩
  · rw [scientificText, plainText, List.append_assoc]
    exact hwhole.begins _
  · have hbehind : ∀ c ∈ ('e' :: wholeText n.exponent ++ rest).head?,
        c.isDigit = false ∧ c ≠ '.' := by
      rintro c ⟨rfl⟩
      decide
    obtain ⟨htext, hends⟩ := fraction?_text hfraction hbehind
    exact unsigned?_append _ hwhole hends htext (exponent?_append n.exponent hrest.isDigit)

theorem IsUnsigned.isNumeral (h : IsUnsigned cs) : IsNumeral cs := by
  obtain ⟨c, hc, hdigit⟩ := h.begins
  refine ⟨⟨c, hc, .inl hdigit⟩, fun rest hrest => ?_⟩
  rw [← h.read rest hrest, numeral?]
  intro ds heq
  cases cs with
  | nil => cases hc
  | cons d cs =>
    cases hc
    cases heq
    cases hdigit

theorem IsUnsigned.isNumeral_neg (h : IsUnsigned cs) : IsNumeral ('-' :: cs) := by
  refine ⟨⟨'-', rfl, .inr rfl⟩, fun rest hrest => ?_⟩
  rw [List.cons_append, numeral?, h.read rest hrest]
  rfl

/-- The digits of a number do not begin with zero, unless it is the only one. -/
theorem isWhole_toDigits (n : Nat) : IsWhole (Nat.toDigits 10 n) := by
  refine ⟨isDigits_toDigits n, Nat.toDigits_ne_nil, ?_⟩
  induction n using Nat.strongRecOn with
  | ind n ih =>
    intro hzero
    rcases Nat.lt_or_ge n 10 with hlt | hge
    · have hdigit : ∀ n < 10, n.digitChar = '0' → n = 0 := by decide
      rw [Nat.toDigits_of_lt_base hlt] at hzero ⊢
      rw [hdigit n hlt (Option.some.inj hzero)]
      rfl
    · -- The front digits are those of a tenth, which is not zero.
      rw [Nat.toDigits_of_base_le (by decide) hge,
        List.head?_append_of_ne_nil _ Nat.toDigits_ne_nil] at hzero
      have htenth := congrArg Binary32.digitsValue (ih (n / 10) (by omega) hzero)
      rw [Binary32.digitsValue_toDigits] at htenth
      exact absurd htenth (by show n / 10 ≠ 0; omega)

theorem isNumeral_toDigits (n : Nat) : IsNumeral (Nat.toDigits 10 n) := by
  have h : IsUnsigned (plainText (Nat.toDigits 10 n) []) :=
    isUnsigned_plainText (isWhole_toDigits n) (List.forall_mem_nil _)
  rw [plainText, if_pos rfl, List.append_nil] at h
  exact h.isNumeral

/-- A numeral is a token by itself. -/
theorem IsNumeral.lexes (h : IsNumeral cs) : Lexes cs [.number cs] := by
  obtain ⟨c, hc, hbegins⟩ := h.begins
  cases cs with
  | nil => cases hc
  | cons d cs =>
    cases hc
    have hplain (e : Char) (he : e.isDigit = false ∧ e ≠ '-') : c ≠ e := by
      rintro rfl
      rcases hbegins with hdigit | hminus
      · exact Bool.false_ne_true (he.1.symm.trans hdigit)
      · exact he.2 hminus
    refine lexes_token ?_ fun rest hrest => ?_
    · simp only [isBlank, Bool.or_eq_false_iff, decide_eq_false_iff_not]
      exact ⟨⟨⟨hplain ' ' (by decide), hplain '\n' (by decide)⟩, hplain '\t' (by decide)⟩,
        hplain '\r' (by decide)⟩
    · have hread := h.read rest hrest
      rw [List.cons_append] at hread
      rw [munch, hread]
      · rfl
      -- The letters and signs that other tokens begin with do not begin a numeral.
      all_goals exact hplain _ (by decide)

end GrammarArt.Json
