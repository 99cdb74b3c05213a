import GrammarArt.Proofs.Binary32.Order
import GrammarArt.Proofs.Expression.Numeral

/-! # The longest token

The token that is taken at the beginning of a text belongs to the language of its kind, carries
what its text denotes, and no longer text of the same kind begins there (`longest_of_munch`).  Where
no token can be taken, all that stands in front of the error is ASCII (`munch_eq_error`).
-/
namespace GrammarArt.Expression

open Text Binary32

/-- The first `n` characters of a text are a token as long as it can be: they are of its kind, it
carries what they denote, and no longer text of its kind begins there. -/
structure Longest (lexeme : Lexeme) (cs : List Char) (n : Nat) : Prop where
  le_length : n ≤ cs.length
  mem : cs.take n ∈ lexeme.language
  carries : lexeme.Carries (cs.take n)
  longest : ∀ text rest, cs = text ++ rest → text ∈ lexeme.language → text.length ≤ n

theorem Longest.of_eq_append {lexeme : Lexeme} {cs text rest : List Char}
    (hcs : cs = text ++ rest) (hmem : text ∈ lexeme.language) (hcarries : lexeme.Carries text)
    (hlongest : ∀ text' rest', cs = text' ++ rest' → text' ∈ lexeme.language →
      text'.length ≤ text.length) : Longest lexeme cs text.length := by
  subst hcs
  exact {
    le_length := List.length_append ▸ Nat.le_add_right _ _
    mem := by rwa [List.take_left]
    carries := by rwa [List.take_left]
    longest := hlongest }

/-- The value of a numeral is never negative. -/
theorem zero_le_value (n : Numeral) : 0 ≤ n.value := by
  have hle : n.decimal.nearest ≤ infinityBits := by
    unfold Decimal.nearest
    split
    · split
      · exact Nat.zero_le _
      · split
        · exact Nat.le_refl _
        · exact Nat.min_le_left _ _
    · split
      · exact Nat.zero_le _
      · exact Nat.min_le_left _ _
  exact (ofMagnitude_spec hle).1

theorem longest_of_numeral {c : Char} {cs : List Char} {n : Numeral} {width : Nat}
    (hstart : startsNumeral (c :: cs) = true) (h : numeral (c :: cs) = .ok (n, width))
    (hfinite : n.value.isFinite = true) : Longest (.number n.value) (c :: cs) (width - 1 + 1) := by
  rw [Nat.sub_add_cancel (pos_of_numeral hstart h)]
  obtain ⟨text, rest, hcs, rfl, hmem, hparts, hlongest⟩ := numeral_eq_ok hstart h
  have hread : read? text = some n.value := by
    rw [read?_of_mem_numerals hmem, hparts]
    rfl
  exact .of_eq_append hcs hmem ⟨hread, hfinite, zero_le_value n⟩ hlongest

theorem longest_of_isNameStart {c : Char} (hc : isNameStart c = true) (cs : List Char) :
    Longest (.name (String.ofList (c :: cs.takeWhile isNamePart))) (c :: cs)
      ((cs.takeWhile isNamePart).length + 1) := by
  have hcs : c :: cs = (c :: cs.takeWhile isNamePart) ++ cs.dropWhile isNamePart := by
    rw [List.cons_append, List.takeWhile_append_dropWhile]
  refine .of_eq_append hcs (mem_names_takeWhile hc cs) rfl fun text rest heq htext => ?_
  have hle := length_le_takeWhile (mem_names.mp htext).isNamePart rest
  rwa [← heq, List.takeWhile_cons, if_pos (isNamePart_iff.mpr (.inl hc))] at hle

theorem longest_of_signOf? {c : Char} {lexeme : Lexeme} (h : signOf? c = some lexeme)
    (cs : List Char) : Longest lexeme (c :: cs) 1 := by
  obtain ⟨hlanguage, hcarries⟩ := language_of_signOf? h
  refine .of_eq_append (List.singleton_append.symm : c :: cs = [c] ++ cs) (hlanguage ▸ rfl)
    hcarries fun text' rest' _ htext' => ?_
  rw [hlanguage] at htext'
  obtain rfl : text' = [c] := htext'
  exact Nat.le_refl _

/-- **The token that is taken is the longest of its kind.** -/
theorem longest_of_munch {c : Char} {cs : List Char} {lexeme : Lexeme} {more : Nat}
    (h : munch c cs = .ok (lexeme, more)) : Longest lexeme (c :: cs) (more + 1) := by
  unfold munch at h
  split at h
  · rename_i hstart
    split at h
    · cases h
    · rename_i n width hnumeral
      dsimp only at h
      split at h
      · rename_i hfinite
        cases h
        exact longest_of_numeral hstart hnumeral hfinite
      · cases h
  · split at h
    · rename_i hc
      cases h
      exact longest_of_isNameStart hc cs
    · split at h
      · rename_i sign hsign
        cases h
        exact longest_of_signOf? hsign cs
      · cases h

/-- In front of the place where an error is reported, all bytes are ASCII. -/
theorem munch_eq_error {c : Char} {cs : List Char} {error : LexicalError} {before : Nat}
    (h : munch c cs = .error (error, before)) :
    ∃ text rest, c :: cs = text ++ rest ∧ text.length = before ∧ IsAscii text := by
  unfold munch at h
  split at h
  · split at h
    · rename_i width hnumeral
      cases h
      exact numeral_eq_error hnumeral
    · dsimp only at h
      split at h
      · cases h
      · cases h
        exact ⟨[], c :: cs, rfl, rfl, nofun⟩
  · split at h
    · cases h
    · split at h
      · cases h
      · cases h
        exact ⟨[], c :: cs, rfl, rfl, nofun⟩

end GrammarArt.Expression
