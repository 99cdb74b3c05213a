import GrammarArt.Proofs.Expression.Longest
import GrammarArt.Proofs.Text.Boundary

/-! # Where the tokens of a text stand

Tokens are read byte by byte, so what is read might begin inside a character, where the bytes can
be any.  It does not: blanks and tokens are ASCII, so a reader that is at the beginning of a
character comes to the beginning of another one, and at a character that is not ASCII it stops
(`scans`).  Therefore a text that has tokens is ASCII (`isAscii_of_lex`), and in any other text an
error is found in front of the first other character, or at it (`lex_of_not_isAscii`).

The tokens of a text stand in order, with nothing but blanks between them, and each of them is the
longest of its kind (`Tiling`, by induction on what is left to be read).
-/
namespace GrammarArt.Expression

open Text

/-! ### Reading by characters -/

/-- The byte with which a character begins that is not ASCII is no blank and begins no token. -/
theorem refuses_foreign {b : Char} (hlow : 192 ≤ b.toNat) (hhigh : b.toNat < 256) (bs : List Char) :
    isBlank b = false ∧ munch b bs = .error (.unexpected b, 0) := by
  have hpart : isNamePart b = false := by
    refine Bool.eq_false_iff.mpr fun h => ?_
    have hle := toNat_of_isNamePart h
    omega
  rw [Bool.eq_false_iff, ne_eq, isNamePart_iff, not_or] at hpart
  have hpoint : b ≠ '.' := by
    rintro rfl
    exact absurd hlow (by decide)
  have hsign : signOf? b = none := by
    rw [Option.eq_none_iff_forall_ne_some]
    intro lexeme h
    have hlt := (plain_of_signOf? h).1
    omega
  refine ⟨?_, ?_⟩
  · simp [isBlank, blankRanges]
    omega
  · rw [munch, startsNumeral_cons hpoint, if_neg hpart.2, if_neg hpart.1, hsign]

/-- What is read from a text whose first byte has the given offset, character by character. -/
inductive Scans : Nat → List Char → Except (LexicalError × Nat) (List Token) → Prop
  | done {offset : Nat} : Scans offset [] (.ok [])
  | foreign {offset : Nat} {c b : Char} {cs bs : List Char} (hc : 128 ≤ c.toNat)
      (hbytes : bytes (String.ofList (c :: cs)) = b :: bs) (hb : 192 ≤ b.toNat ∧ b.toNat < 256) :
      Scans offset (c :: cs) (.error (.unexpected b, offset))
  | blank {offset : Nat} {c : Char} {cs : List Char} {outcome} (hc : c.toNat < 128)
      (hblank : isBlank c = true) (hcs : Scans (offset + 1) cs outcome) :
      Scans offset (c :: cs) outcome
  | refused {offset before : Nat} {c : Char} {cs : List Char} {error : LexicalError}
      (hc : c.toNat < 128) (hblank : isBlank c = false)
      (hmunch : munch c (bytes (String.ofList cs)) = .error (error, before)) :
      Scans offset (c :: cs) (.error (error, offset + before))
  | token {offset : Nat} {c : Char} {text rest : List Char} {lexeme : Lexeme} {outcome}
      (hascii : IsAscii (c :: text)) (hblank : isBlank c = false)
      (hmunch : munch c (text ++ bytes (String.ofList rest)) = .ok (lexeme, text.length))
      (hrest : Scans (offset + 1 + text.length) rest outcome) :
      Scans offset (c :: text ++ rest)
        (outcome.map (⟨lexeme, offset, offset + 1 + text.length⟩ :: ·))

/-- A token ends where a character does. -/
theorem exists_text_of_munch {c : Char} {cs : List Char} {lexeme : Lexeme} {more : Nat}
    (h : munch c (bytes (String.ofList cs)) = .ok (lexeme, more)) :
    ∃ text rest, cs = text ++ rest ∧ IsAscii (c :: text) ∧ text.length = more ∧
      bytes (String.ofList cs) = text ++ bytes (String.ofList rest) := by
  have hlong := longest_of_munch h
  have htaken : IsAscii (c :: (bytes (String.ofList cs)).take more) :=
    Lexeme.isAscii_of_mem hlong.mem
  obtain ⟨hc, htake⟩ := isAscii_cons.mp htaken
  obtain ⟨text, rest, rfl, htext, rfl⟩ :=
    exists_append_of_take (Nat.le_of_succ_le_succ hlong.le_length) htake
  refine ⟨text, rest, rfl, isAscii_cons.mpr ⟨hc, htext⟩, rfl, ?_⟩
  rw [bytes_append, bytes_of_isAscii htext]

/-- **Tokens are read character by character.** -/
theorem scans (offset : Nat) (cs : List Char) :
    Scans offset cs (scan offset (bytes (String.ofList cs))) := by
  -- On the number of characters that are left, since a token takes several of them.
  induction hlength : cs.length using Nat.strong_induction_on generalizing offset cs with
  | _ n ih =>
    subst hlength
    cases cs with
    | nil =>
      rw [bytes_ofList, List.flatMap_nil, scan]
      exact .done
    | cons c cs =>
      rcases Nat.lt_or_ge c.toNat 128 with hc | hc
      · rw [bytes_cons_of_lt hc]
        cases hblank : isBlank c with
        | true =>
          rw [scan, if_pos hblank]
          exact .blank hc hblank (ih cs.length (Nat.lt_succ_self _) _ _ rfl)
        | false =>
          cases hmunch : munch c (bytes (String.ofList cs)) with
          | error e =>
            rw [scan, if_neg (by simp [hblank]), hmunch]
            exact .refused hc hblank hmunch
          | ok taken =>
            obtain ⟨lexeme, more⟩ := taken
            obtain ⟨text, rest, rfl, hascii, rfl, hbytes⟩ := exists_text_of_munch hmunch
            have hless : rest.length < (c :: (text ++ rest)).length := by
              rw [List.length_cons, List.length_append]
              omega
            rw [hbytes] at hmunch ⊢
            rw [scan_cons hblank hmunch, List.drop_left]
            exact .token hascii hblank hmunch (ih _ hless _ _ rfl)
      · obtain ⟨b, bs, hbytes, hb⟩ := exists_bytes_cons hc cs
        obtain ⟨hblank, hmunch⟩ := refuses_foreign hb.1 hb.2 bs
        rw [hbytes, scan, if_neg (by simp [hblank]), hmunch]
        exact .foreign hc hbytes hb

/-- ASCII characters at the beginning of a text stand in front of any other character. -/
theorem exists_append_of_isAscii {before after text rest : List Char} {c : Char}
    (h : text ++ rest = before ++ c :: after) (htext : IsAscii text) (hc : 128 ≤ c.toNat) :
    ∃ more, before = text ++ more ∧ rest = more ++ c :: after := by
  rcases List.append_eq_append_iff.mp h with hmore | ⟨more, rfl, hmore⟩
  · exact hmore
  · cases more with
    | nil => exact ⟨[], by rw [List.append_nil, List.append_nil], hmore.symm⟩
    | cons d more =>
      obtain ⟨rfl, -⟩ := List.cons.inj hmore
      have hlow := (isAscii_append.mp htext).2 c List.mem_cons_self
      omega

/-- Reading a text stops in front of any character that is not ASCII, or at it. -/
theorem Scans.exists_error {offset : Nat} {before after cs : List Char} {c : Char}
    {outcome : Except (LexicalError × Nat) (List Token)} (h : Scans offset cs outcome)
    (hcs : cs = before ++ c :: after) (hc : 128 ≤ c.toNat) :
    ∃ error place, outcome = .error (error, place) ∧
      place ≤ offset + (bytes (String.ofList before)).length := by
  induction h generalizing before with
  | done => cases before <;> cases hcs
  | foreign hforeign hbytes hb => exact ⟨_, _, rfl, Nat.le_add_right _ _⟩
  | blank hascii hblank hrest ih =>
    cases before with
    | nil =>
      obtain ⟨rfl, -⟩ := List.cons.inj hcs
      omega
    | cons d before =>
      obtain ⟨rfl, htail⟩ := List.cons.inj hcs
      obtain ⟨error, place, herror, hplace⟩ := ih htail
      rw [bytes_cons_of_lt hascii, List.length_cons]
      exact ⟨error, place, herror, by omega⟩
  | refused hascii hblank hmunch =>
    obtain ⟨text, rest, htext, rfl, htextAscii⟩ := munch_eq_error hmunch
    obtain ⟨b, bs, hbytes, hb, -⟩ := exists_bytes_cons hc after
    rw [← bytes_cons_of_lt hascii, hcs, bytes_append, hbytes] at htext
    obtain ⟨more, hbefore, -⟩ :=
      exists_append_of_isAscii htext.symm htextAscii (Nat.le_trans (by decide) hb)
    refine ⟨_, _, rfl, Nat.add_le_add_left ?_ _⟩
    rw [hbefore, List.length_append]
    exact Nat.le_add_right _ _
  | token hascii hblank hmunch hrest ih =>
    obtain ⟨more, rfl, hmore⟩ := exists_append_of_isAscii hcs hascii hc
    obtain ⟨error, place, rfl, hplace⟩ := ih hmore
    refine ⟨error, place, rfl, ?_⟩
    rw [bytes_append, bytes_of_isAscii hascii, List.length_append, List.length_cons]
    omega

theorem lex_eq (s : String) :
    lex s = (scan 0 (bytes s)).map fun body => ⟨body, (bytes s).length⟩ := by
  rw [lex]
  cases scan 0 (bytes s) with
  | error e => rfl
  | ok body => rfl

/-- **In a text with a character that is not ASCII an error is found, in front of this character or
at it.** -/
theorem lex_of_not_isAscii (before after : List Char) {c : Char} (hc : 128 ≤ c.toNat) :
    ∃ error place, lex (String.ofList (before ++ c :: after)) = .error (error, place) ∧
      place ≤ (String.ofList before).utf8ByteSize := by
  obtain ⟨error, place, herror, hplace⟩ := (scans 0 (before ++ c :: after)).exists_error rfl hc
  rw [Nat.zero_add, length_bytes] at hplace
  refine ⟨error, place, ?_, hplace⟩
  rw [lex_eq, herror]
  rfl

/-- **A text that has tokens is ASCII.** -/
theorem isAscii_of_lex {s : String} {tokens : Tokens} (h : lex s = .ok tokens) :
    IsAscii s.toList := by
  refine fun c hmem => Nat.lt_of_not_le fun hc => ?_
  obtain ⟨before, after, hs⟩ := List.append_of_mem hmem
  obtain ⟨error, place, herror, -⟩ := lex_of_not_isAscii before after hc
  rw [← hs, String.ofList_toList, h] at herror
  cases herror

/-! ### The tokens in their places -/

/-- These are the tokens of a list of bytes from an offset on: in order, with blanks between them,
and each the longest of its kind. -/
structure Tiling (bs : List Char) (offset : Nat) (tokens : List Token) : Prop where
  bounds : ∀ t ∈ tokens, offset ≤ t.start ∧ t.start < t.stop ∧ t.stop ≤ bs.length
  ordered : tokens.Pairwise fun t u => t.stop ≤ u.start
  blank : ∀ i b, offset ≤ i → bs[i]? = some b → (∀ t ∈ tokens, i < t.start ∨ t.stop ≤ i) →
    isBlank b = true
  longest : ∀ t ∈ tokens, Longest t.lexeme (bs.drop t.start) (t.stop - t.start)

section
variable {bs cs : List Char} {offset : Nat} {tokens : List Token} {c : Char}

theorem tiling_nil (h : bs.drop offset = []) : Tiling bs offset [] where
  bounds := nofun
  ordered := .nil
  blank := by
    intro i b hi hb
    have hlength := List.drop_eq_nil_iff.mp h
    have hlt := (List.getElem?_eq_some_iff.mp hb).1
    omega
  longest := nofun

theorem getElem?_of_drop (h : bs.drop offset = c :: cs) :
    bs[offset]? = some c ∧ bs.drop (offset + 1) = cs := by
  have hget := congrArg (·[0]?) h
  have htail := congrArg List.tail h
  rw [List.tail_drop] at htail
  exact ⟨by simpa using hget, htail⟩

theorem Tiling.blank_cons (h : Tiling bs (offset + 1) tokens) (hdrop : bs.drop offset = c :: cs)
    (hblank : isBlank c = true) : Tiling bs offset tokens where
  bounds t ht := by
    have hbounds := h.bounds t ht
    omega
  ordered := h.ordered
  blank := by
    intro i b hi hb hout
    rcases hi.eq_or_lt with rfl | hlt
    · rw [(getElem?_of_drop hdrop).1] at hb
      cases hb
      exact hblank
    · exact h.blank i b hlt hb hout
  longest := h.longest

theorem Tiling.token_cons {lexeme : Lexeme} {more : Nat} (h : Tiling bs (offset + 1 + more) tokens)
    (hdrop : bs.drop offset = c :: cs) (hlong : Longest lexeme (c :: cs) (more + 1)) :
    Tiling bs offset (⟨lexeme, offset, offset + 1 + more⟩ :: tokens) where
  bounds := by
    have hle := hlong.le_length
    rw [← hdrop, List.length_drop] at hle
    refine List.forall_mem_cons.mpr ⟨⟨Nat.le_refl _, ?_, ?_⟩, fun t ht => ?_⟩
    · show offset < offset + 1 + more
      omega
    · show offset + 1 + more ≤ bs.length
      omega
    · have hbounds := h.bounds t ht
      omega
  ordered := List.pairwise_cons.mpr ⟨fun t ht => (h.bounds t ht).1, h.ordered⟩
  blank := by
    intro i b hi hb hout
    rcases (List.forall_mem_cons.mp hout).1 with hlt | hle
    · exact absurd hi (Nat.not_le_of_lt hlt)
    · exact h.blank i b hle hb (List.forall_mem_cons.mp hout).2
  longest := by
    refine List.forall_mem_cons.mpr ⟨?_, h.longest⟩
    show Longest lexeme (bs.drop offset) (offset + 1 + more - offset)
    rw [hdrop, Nat.add_assoc, Nat.add_sub_cancel_left, Nat.add_comm]
    exact hlong

/-- **The tokens that are read tile the text.** -/
theorem tiling_of_scan (h : scan offset cs = .ok tokens) (hdrop : bs.drop offset = cs) :
    Tiling bs offset tokens := by
  fun_induction scan offset cs generalizing tokens with
  | case1 offset =>
    cases h
    exact tiling_nil hdrop
  | case2 offset c cs hblank ih => exact (ih h (getElem?_of_drop hdrop).2).blank_cons hdrop hblank
  | case3 offset c cs hblank error before hmunch => cases h
  | case4 offset c cs hblank lexeme more hmunch stop =>
    rename_i ih
    cases hrest : scan stop (cs.drop more) with
    | error e =>
      rw [hrest] at h
      cases h
    | ok rest =>
      rw [hrest] at h
      cases h
      have hskip : bs.drop stop = cs.drop more := by
        rw [← (getElem?_of_drop hdrop).2, List.drop_drop]
      exact (ih hrest hskip).token_cons hdrop (longest_of_munch hmunch)

end

/-- What the spans of the tokens of a text are. -/
structure Spans (cs : List Char) (tokens : List Token) : Prop where
  /-- No span is empty. -/
  bounds : ∀ t ∈ tokens, t.start < t.stop ∧ t.stop ≤ cs.length
  /-- No span begins before those in front of it end. -/
  ordered : tokens.Pairwise fun t u => t.stop ≤ u.start
  /-- What is in no span is blank. -/
  blank : ∀ i c, cs[i]? = some c → (∀ t ∈ tokens, ¬ (t.start ≤ i ∧ i < t.stop)) →
    isBlank c = true
  /-- The text of a span is that of its token. -/
  spelled : ∀ t ∈ tokens, cs.extract t.start t.stop ∈ t.lexeme.language ∧
    t.lexeme.Carries (cs.extract t.start t.stop)
  /-- A span cannot be made any longer: no other text of the same kind that begins behind all
  tokens in front of it contains it. -/
  maximal : ∀ t ∈ tokens, ∀ start stop, start ≤ t.start → t.stop ≤ stop → stop ≤ cs.length →
    (∀ u ∈ tokens, u.stop ≤ t.start → u.stop ≤ start) →
    cs.extract start stop ∈ t.lexeme.language → start = t.start ∧ stop = t.stop

section
variable {cs : List Char} {tokens : List Token}

theorem Tiling.spelled (h : Tiling cs 0 tokens) {t : Token} (ht : t ∈ tokens) :
    cs.extract t.start t.stop ∈ t.lexeme.language ∧
      t.lexeme.Carries (cs.extract t.start t.stop) := by
  rw [List.extract_eq_take_drop]
  exact ⟨(h.longest t ht).mem, (h.longest t ht).carries⟩

/-- None of the tokens is the end of the text. -/
theorem Tiling.ne_endOfText {offset : Nat} (h : Tiling cs offset tokens) {t : Token}
    (ht : t ∈ tokens) : t.lexeme ≠ .endOfText := by
  intro hend
  have hmem := (h.longest t ht).mem
  have hlength := List.length_take_of_le (h.longest t ht).le_length
  have hbounds := h.bounds t ht
  rw [hend] at hmem
  rw [show (cs.drop t.start).take (t.stop - t.start) = [] from hmem, List.length_nil] at hlength
  omega

/-- Of two tokens, one stands in front of the other. -/
theorem Tiling.apart {offset : Nat} (h : Tiling cs offset tokens) {t u : Token} (ht : t ∈ tokens)
    (hu : u ∈ tokens) (hne : u ≠ t) : u.stop ≤ t.start ∨ t.stop ≤ u.start := by
  have : Std.Symm fun t u : Token => t.stop ≤ u.start ∨ u.stop ≤ t.start :=
    ⟨fun _ _ h => h.symm⟩
  have hpair : tokens.Pairwise fun t u => t.stop ≤ u.start ∨ u.stop ≤ t.start :=
    h.ordered.imp Or.inl
  exact hpair.forall hu ht hne

theorem Tiling.maximal (h : Tiling cs 0 tokens) {t : Token} (ht : t ∈ tokens) {start stop : Nat}
    (hstart : start ≤ t.start) (hstop : t.stop ≤ stop) (hlength : stop ≤ cs.length)
    (hfree : ∀ u ∈ tokens, u.stop ≤ t.start → u.stop ≤ start)
    (hmem : cs.extract start stop ∈ t.lexeme.language) : start = t.start ∧ stop = t.stop := by
  have hbounds := (h.bounds t ht).2.1
  rw [List.extract_eq_take_drop] at hmem
  have hstart : start = t.start := by
    by_contra hne
    -- The character there is in no token, so it is blank, and no token begins with it.
    have hlt : start < cs.length := by omega
    have hout : ∀ u ∈ tokens, start < u.start ∨ u.stop ≤ start := by
      intro u hu
      by_cases hut : u = t
      · subst hut
        omega
      · rcases h.apart ht hu hut with hle | hle
        · exact .inr (hfree u hu hle)
        · omega
    have hblank := h.blank start cs[start] (Nat.zero_le _) (List.getElem?_eq_getElem hlt) hout
    obtain ⟨n, hn⟩ : ∃ n, stop - start = n + 1 := Nat.exists_eq_add_one.mpr (by omega)
    rw [List.drop_eq_getElem_cons hlt, hn, List.take_succ_cons] at hmem
    rw [Lexeme.isBlank_of_mem hmem] at hblank
    cases hblank
  subst hstart
  have hle := (h.longest t ht).longest _ _ (List.take_append_drop _ _).symm hmem
  rw [List.length_take, List.length_drop] at hle
  omega

theorem Tiling.spans (h : Tiling cs 0 tokens) : Spans cs tokens where
  bounds t ht := (h.bounds t ht).2
  ordered := h.ordered
  blank := by
    intro i c hc hout
    refine h.blank i c (Nat.zero_le _) hc fun t ht => ?_
    have hnot := hout t ht
    omega
  spelled _ ht := h.spelled ht
  maximal _ ht _ _ hstart hstop hlength hfree hmem := h.maximal ht hstart hstop hlength hfree hmem

end

end GrammarArt.Expression
