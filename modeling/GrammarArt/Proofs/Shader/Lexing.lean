import GrammarArt.Proofs.Expression.Lexing
import GrammarArt.Proofs.Shader.Language

/-! # Shader texts with known tokens

A text that is put together of words, numbers and signs has the tokens of its parts, whatever
follows it that ends a word or a numeral (`Lexes`).  The literal of a finite number is a
number with a fraction, in every layout it can have (`lexes_magnitudeText`).
-/
namespace GrammarArt.Shader.Language

open Text Binary32
open Expression (IsName Ends ends_cons ends_nil numeral numeral_append numeral_plainText
  behindDigits startsNumeral isNamePart isNameStart isNamePart_iff isDigit_iff
  isBlank_of_isNamePart ne_point_of_isNamePart takeWhile_append)

variable {cs ds rest : List Char} {ts us : List Token}

/-! ### Texts and their tokens -/

/-- The text has these tokens, whatever follows it that ends a word or a numeral. -/
def Lexes (cs : List Char) (ts : List Token) : Prop :=
  ∀ rest, Ends rest → scan (cs ++ rest) = (scan rest).map (ts ++ ·)

theorem lexes_nil : Lexes [] [] := by
  intro rest _
  exact Option.map_id'.symm

theorem Lexes.append (hcs : Lexes cs ts) (hds : Lexes ds us) (hends : Ends ds) :
    Lexes (cs ++ ds) (ts ++ us) := by
  intro rest hrest
  rw [List.append_assoc, hcs _ (hends.append hrest), hds _ hrest, Option.map_map]
  exact congrArg (fun f => (scan rest).map f) (funext fun us' => (List.append_assoc _ _ _).symm)

theorem scan_blank {c : Char} (h : isBlank c = true) (cs : List Char) :
    scan (c :: cs) = scan cs := by
  rw [scan, if_pos h]

theorem Lexes.blank {c : Char} (hds : Lexes ds us) (h : isBlank c = true) :
    Lexes (c :: ds) us := by
  intro rest hrest
  rw [List.cons_append, scan_blank h]
  exact hds rest hrest

theorem Lexes.space (hds : Lexes ds us) : Lexes (' ' :: ds) us := hds.blank rfl

/-- A token at the front of a text. -/
theorem scan_token {c : Char} {token : Token} (hblank : isBlank c = false)
    (hmunch : munch? c (cs ++ rest) = some (token, (c :: cs).length)) :
    scan (c :: cs ++ rest) = (scan rest).map (token :: ·) := by
  rw [List.cons_append, scan, if_neg (by simp [hblank]), hmunch]
  show (scan ((cs ++ rest).drop cs.length)).map _ = _
  rw [List.drop_left]

/-! ### Signs -/

/-- A character that is a sign by itself, whatever follows it. -/
def IsSign (c : Char) : Prop := c ∈ signs ∧ c ≠ '.' ∧ c ≠ '='

instance (c : Char) : Decidable (IsSign c) := inferInstanceAs (Decidable (_ ∧ _))

theorem plain_of_mem_signs {c : Char} (h : c ∈ signs) :
    isBlank c = false ∧ c.isDigit = false ∧ isNameStart c = false := by
  have hall : signs.all (fun c => !isBlank c && (!c.isDigit && !isNameStart c)) = true := rfl
  simpa using List.all_eq_true.mp hall c h

theorem scan_sign {c : Char} (hc : c ∈ signs) (hnumeral : startsNumeral (c :: cs) = false)
    (hequal : ¬ (c = '=' ∧ cs.head? = some '=')) :
    scan (c :: cs) = (scan cs).map (.sign (String.singleton c) :: ·) := by
  obtain ⟨hblank, -, hstart⟩ := plain_of_mem_signs hc
  have hmunch : munch? c cs = some (.sign (String.singleton c), 1) := by
    rw [munch?, if_neg (by simp [hnumeral]), if_neg (by simp [hstart]), if_neg hequal, if_pos hc]
  show scan ([c] ++ cs) = _
  exact scan_token hblank hmunch

theorem Lexes.sign {c : Char} (hds : Lexes ds us) (hc : IsSign c) :
    Lexes (c :: ds) (.sign (String.singleton c) :: us) := by
  intro rest hrest
  obtain ⟨hmem, hpoint, hequal⟩ := hc
  have hnumeral : startsNumeral (c :: (ds ++ rest)) = false := by
    rw [Expression.startsNumeral_cons hpoint]
    exact (plain_of_mem_signs hmem).2.1
  rw [List.cons_append, scan_sign hmem hnumeral fun h => hequal h.1, hds rest hrest,
    Option.map_map]
  rfl

/-- An operator with a blank on both sides of it. -/
theorem Lexes.operator (hds : Lexes ds us) (op : Operator) :
    Lexes (' ' :: (op.text.toList ++ ' ' :: ds)) (.sign op.text :: us) := by
  have hblank : Lexes (' ' :: ds) us := hds.space
  refine Lexes.space ?_
  cases op with
  | add | sub | mul | div | rem | less => exact hblank.sign (by decide)
  | equal =>
    intro rest hrest
    have hmunch : munch? '=' (['='] ++ (' ' :: ds ++ rest)) = some (.sign "==", 2) := rfl
    have hscan := scan_token rfl hmunch
    rw [hblank rest hrest, Option.map_map] at hscan
    exact hscan

/-- The sign behind a name that is given out, with a blank on both sides of it. -/
theorem Lexes.assign (hds : Lexes ds us) : Lexes (' ' :: '=' :: ' ' :: ds) (.sign "=" :: us) := by
  refine Lexes.blank (fun rest hrest => ?_) rfl
  have hequal : ¬ ('=' = '=' ∧ (' ' :: (ds ++ rest)).head? = some '=') := by simp
  rw [List.cons_append, List.cons_append, scan_sign (by decide) rfl hequal, scan_blank rfl,
    hds rest hrest, Option.map_map]
  rfl

/-! ### Words -/

/-- A word that is not the name of the type of vectors up to its brackets. -/
def IsWord (cs : List Char) : Prop := IsName cs ∧ cs ≠ ['v', 'e', 'c', '3']

theorem exists_eq_cons_of_isName (h : IsName cs) :
    ∃ c cs', cs = c :: cs' ∧ isNameStart c = true ∧ isNamePart c = true := by
  cases cs with
  | nil => exact absurd h.1 Bool.false_ne_true
  | cons c cs => exact ⟨c, cs, rfl, h.1, h.isNamePart c List.mem_cons_self⟩

/-- A text that begins like a name begins with a word. -/
theorem munch?_word {c : Char} (hc : isNameStart c = true) (cs : List Char) : munch? c cs =
    some (.word (String.ofList (scanWord (c :: cs))), (scanWord (c :: cs)).length) := by
  have hpoint := ne_point_of_isNamePart (isNamePart_iff.mpr (.inl hc))
  rw [munch?, Expression.startsNumeral_cons hpoint, Expression.isDigit_of_isNameStart hc,
    if_neg Bool.false_ne_true, if_pos hc]

theorem scanWord_eq (h : IsWord cs) (hrest : ∀ c ∈ rest.head?, isNamePart c = false) :
    scanWord (cs ++ rest) = cs := by
  rw [scanWord, takeWhile_append h.1.isNamePart hrest]
  exact if_neg fun hvector => h.2 hvector.1

theorem scan_word (h : IsWord cs) (hrest : ∀ c ∈ rest.head?, isNamePart c = false) :
    scan (cs ++ rest) = (scan rest).map (.word (String.ofList cs) :: ·) := by
  have hword := scanWord_eq h hrest
  obtain ⟨c, cs', rfl, hstart, hpart⟩ := exists_eq_cons_of_isName h.1
  refine scan_token (isBlank_of_isNamePart hpart) ?_
  rw [munch?_word hstart, ← List.cons_append, hword]

theorem IsWord.lexes (h : IsWord cs) : Lexes cs [.word (String.ofList cs)] :=
  fun _ hrest => scan_word h fun c hc => (hrest c hc).1

theorem lexes_vectorType : Lexes vectorType.toList [.word vectorType] := by
  intro rest _
  have hword : scanWord (vectorType.toList ++ rest) = vectorType.toList := by
    unfold scanWord
    exact if_pos ⟨rfl, rest, rfl⟩
  have hmunch := munch?_word (c := 'v') rfl
    ('e' :: 'c' :: '3' :: '<' :: 'f' :: '3' :: '2' :: '>' :: rest)
  rw [show 'v' :: 'e' :: 'c' :: '3' :: '<' :: 'f' :: '3' :: '2' :: '>' :: rest =
    vectorType.toList ++ rest from rfl, hword, String.ofList_toList] at hmunch
  exact scan_token rfl hmunch

/-- A name, a point and the name of a field. -/
theorem lexes_member {field : List Char} (h : IsWord cs) (hfield : IsWord field) :
    Lexes (cs ++ '.' :: field)
      [.word (String.ofList cs), .sign ".", .word (String.ofList field)] := by
  intro rest hrest
  have hnumeral : startsNumeral ('.' :: (field ++ rest)) = false := by
    obtain ⟨c, field', rfl, hstart, -⟩ := exists_eq_cons_of_isName hfield.1
    exact Expression.isDigit_of_isNameStart hstart
  have hpoint : ∀ c ∈ ('.' :: (field ++ rest)).head?, isNamePart c = false := by
    rintro c ⟨rfl⟩
    rfl
  rw [List.append_assoc, List.cons_append, scan_word h hpoint,
    scan_sign (by decide) hnumeral (fun h => absurd h.1 (by decide)), hfield.lexes rest hrest,
    Option.map_map, Option.map_map]
  rfl

/-! ### Numbers -/

/-- A numeral that digits begin. -/
theorem scan_numeral {n : Numeral} (hwhole : IsDigits n.whole) (hne : n.whole ≠ [])
    (hbegins : n.whole <+: cs) (hnumeral : numeral (cs ++ rest) = .ok (n, cs.length)) :
    scan (cs ++ rest) = (scan rest).map ((if cs.length = n.whole.length then
      .whole (digitsValue n.whole) else .float n.value) :: ·) := by
  obtain ⟨c, whole, hcons⟩ := List.exists_cons_of_ne_nil hne
  rw [hcons] at hbegins
  obtain ⟨tail, rfl⟩ := hbegins
  have hdigit : c.isDigit = true := hwhole c (hcons ▸ List.mem_cons_self)
  have hpart : isNamePart c = true := isNamePart_iff.mpr (.inr hdigit)
  have hpoint := ne_point_of_isNamePart hpart
  rw [List.cons_append] at hnumeral ⊢
  refine scan_token (isBlank_of_isNamePart hpart) ?_
  rw [List.cons_append] at hnumeral
  rw [munch?, Expression.startsNumeral_cons hpoint, if_pos hdigit, hnumeral]
  simp only
  split
  · rfl
  · rfl

theorem lexes_whole (n : Nat) : Lexes (Nat.toDigits 10 n) [.whole n] := by
  intro rest hrest
  have hnumeral := numeral_plainText (isDigits_toDigits n) (List.forall_mem_nil _) hrest
  rw [plainText, if_pos rfl, List.append_nil] at hnumeral
  have hscan := scan_numeral (n := ⟨Nat.toDigits 10 n, [], 0⟩) (isDigits_toDigits n)
    Nat.toDigits_ne_nil (List.prefix_refl _) hnumeral
  rw [if_pos rfl, digitsValue_toDigits] at hscan
  exact hscan

theorem behindDigits_exponent (whole fraction : List Char) (width : Nat) (k : Int)
    (hrest : Ends rest) : behindDigits whole fraction width ('e' :: (wholeText k ++ rest)) =
      .ok (⟨whole, fraction, k⟩, width + 1 + (wholeText k).length) := by
  have htake (m : Nat) : (Nat.toDigits 10 m ++ rest).takeWhile Char.isDigit = Nat.toDigits 10 m :=
    takeWhile_append (isDigits_toDigits m) hrest.isDigit
  unfold behindDigits
  simp only [true_or, if_true]
  cases k with
  | ofNat m =>
    have hsign : ∀ c ∈ (Nat.toDigits 10 m ++ rest).head?, c ≠ '+' ∧ c ≠ '-' := by
      intro c hc
      rw [List.head?_append_of_ne_nil _ Nat.toDigits_ne_nil] at hc
      have hdigit := isDigits_toDigits m c (List.mem_of_mem_head? hc)
      constructor
      · rintro rfl
        exact absurd hdigit (by decide)
      · rintro rfl
        exact absurd hdigit (by decide)
    have hminus : ¬ (Nat.toDigits 10 m ++ rest).head? = some '-' := fun h => (hsign _ h).2 rfl
    rw [wholeText]
    split
    · rename_i heq
      exact absurd rfl (hsign '+' (by rw [heq]; rfl)).1
    · rename_i heq
      exact absurd rfl (hsign '-' (by rw [heq]; rfl)).2
    · rw [List.drop_zero, htake, if_neg Nat.toDigits_ne_nil, if_neg hminus, digitsValue_toDigits]
      rfl
  | negSucc m =>
    rw [wholeText]
    simp only [List.cons_append, List.drop_succ_cons, List.drop_zero, htake,
      if_neg Nat.toDigits_ne_nil, List.head?_cons, if_true, digitsValue_toDigits]
    rw [List.length_cons, Nat.add_right_comm (width + 1) 1, Nat.add_assoc (width + 1)]
    rfl

theorem numeral_scientificText {n : Numeral} (hwhole : IsDigits n.whole)
    (hfraction : IsDigits n.fraction) (hrest : Ends rest) :
    numeral (scientificText n ++ rest) = .ok (n, (scientificText n).length) := by
  have hhead : ∀ c ∈ ('e' :: (wholeText n.exponent ++ rest)).head?,
      c.isDigit = false ∧ c ≠ '.' := by
    rintro c ⟨rfl⟩
    decide
  rw [scientificText, List.append_assoc, List.cons_append, numeral_append hwhole hfraction hhead,
    behindDigits_exponent _ _ _ _ hrest, List.length_append, List.length_cons, Nat.add_assoc,
    Nat.add_comm 1]

/-- A numeral with a point or an exponent. -/
theorem lexes_float {n : Numeral} (hwhole : IsDigits n.whole) (hne : n.whole ≠ [])
    (hbegins : n.whole <+: cs) (hlonger : cs.length ≠ n.whole.length)
    (hnumeral : ∀ rest, Ends rest → numeral (cs ++ rest) = .ok (n, cs.length)) :
    Lexes cs [.float n.value] := by
  intro rest hrest
  have hscan := scan_numeral hwhole hne hbegins (hnumeral rest hrest)
  rw [if_neg hlonger] at hscan
  exact hscan

/-- The literal of a magnitude is a number with a fraction. -/
theorem lexes_magnitudeText {b : Nat} (hb : b < infinityBits) :
    Lexes (magnitudeText literal b) [.float (ofMagnitude false b)] := by
  obtain ⟨n, hne, hwhole, hfraction, hread, htext⟩ := exists_literal_numeral hb
  have hvalue : n.value = ofMagnitude false b := congrArg (ofMagnitude false) hread
  rw [← hvalue]
  rcases htext with ⟨htext, hpoint, hexponent⟩ | htext
  · rw [htext]
    have hnumeral : ∀ rest, Ends rest → numeral (plainText n.whole n.fraction ++ rest) =
        .ok (n, (plainText n.whole n.fraction).length) := by
      intro rest hrest
      rw [numeral_plainText hwhole hfraction hrest, ← hexponent]
    refine lexes_float hwhole hne (List.prefix_append _ _) ?_ hnumeral
    rw [plainText, if_neg hpoint, List.length_append, List.length_cons]
    omega
  · rw [htext]
    refine lexes_float hwhole hne ?_ ?_ fun rest hrest =>
      numeral_scientificText hwhole hfraction hrest
    · exact (List.prefix_append _ _).trans (List.prefix_append _ _)
    · rw [scientificText, plainText, List.length_append, List.length_append, List.length_cons]
      omega

end GrammarArt.Shader.Language
