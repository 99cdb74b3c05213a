import GrammarArt.Proofs.Expression.Spans

/-! # Tokens read in place

Here the tokens are read with an offset that moves on through the bytes of a text, byte by byte in
one loop for each run of digits or of parts of a name (`skip`), and the text of a token is cut out
when its end has been found.  A byte is only asked for together with a proof that it is there; the
offset grows with every token (`lt_stop_of_tokenAt`), so reading ends.  What is left that could go
wrong is a cut inside a character, and a numeral of which the text turns out to be none (`Mishap`).

Neither happens, whatever the text is: what is read in place are the tokens of the text, or it is
the error that is found there (`lexInPlace_eq`).  The offset is always that of a character, since a
reader goes on from one character to another one (`Scans`), and the text of a numeral is in the
language of numerals, all of which can be read.
-/
namespace GrammarArt.Expression

open Text Binary32

/-! ### Loops -/

/-- Whether there is a byte at an offset, and it passes a test. -/
def byteIs (p : Char → Bool) (bs : List Char) (i : Nat) : Bool :=
  if h : i < bs.length then p bs[i] else false

/-- The first offset from `i` on at which no byte passes a test. -/
def skip (p : Char → Bool) (bs : List Char) (i : Nat) : Nat :=
  if h : i < bs.length then
    if p bs[i] then skip p bs (i + 1) else i
  else i
termination_by bs.length - i

/-- The offset behind the digits of the numeral at `start`, with a point among them. -/
def mantissaEnd (bs : List Char) (start : Nat) : Nat :=
  if byteIs (· = '.') bs start then skip Char.isDigit bs (start + 1)
  else
    let i := skip Char.isDigit bs start
    if byteIs (· = '.') bs i && byteIs Char.isDigit bs (i + 1) then skip Char.isDigit bs (i + 1)
    else skip Char.isDigit bs i

/-- The offset behind the numeral at `start`; that of its `e`, if no digits follow it. -/
def numeralEnd (bs : List Char) (start : Nat) : Except Nat Nat :=
  let i := mantissaEnd bs start
  if byteIs (fun c => c = 'e' || c = 'E') bs i then
    let first := if byteIs (fun c => c = '+' || c = '-') bs (i + 1) then i + 2 else i + 1
    let stop := skip Char.isDigit bs first
    if stop = first then .error i else .ok stop
  else .ok i

section
variable {bs cs : List Char} {p : Char → Bool} {i start : Nat}

theorem byteIs_eq : byteIs p bs i = (bs.drop i).head?.any p := by
  unfold byteIs
  split
  · rename_i h
    rw [List.drop_eq_getElem_cons h]
    rfl
  · rename_i h
    rw [List.drop_eq_nil_of_le (Nat.le_of_not_lt h)]
    rfl

theorem skip_eq (p : Char → Bool) (bs : List Char) (i : Nat) :
    skip p bs i = i + ((bs.drop i).takeWhile p).length := by
  fun_induction skip p bs i with
  | case1 i h hp ih =>
    rw [ih, List.drop_eq_getElem_cons h, List.takeWhile_cons, if_pos hp, List.length_cons]
    omega
  | case2 i h hp =>
    rw [List.drop_eq_getElem_cons h, List.takeWhile_cons, if_neg hp]
    rfl
  | case3 i h =>
    rw [List.drop_eq_nil_of_le (Nat.le_of_not_lt h)]
    rfl

theorem drop_add_takeWhile (p : Char → Bool) (bs : List Char) (i : Nat) :
    bs.drop (i + ((bs.drop i).takeWhile p).length) = (bs.drop i).dropWhile p := by
  have hsplit := congrArg (List.drop ((bs.drop i).takeWhile p).length)
    (List.takeWhile_append_dropWhile (p := p) (l := bs.drop i))
  rw [List.drop_left, List.drop_drop] at hsplit
  exact hsplit.symm

/-- Digits behind a point are found by their first one. -/
theorem pointedDigits_cases (cs : List Char) :
    (cs.head?.any (· = '.') && cs.tail.head?.any Char.isDigit) = true ∧
      pointedDigits cs = cs.tail.takeWhile Char.isDigit ∧ pointedDigits cs ≠ [] ∨
    (cs.head?.any (· = '.') && cs.tail.head?.any Char.isDigit) = false ∧ pointedDigits cs = [] := by
  by_cases hpoint : ∃ ds, cs = '.' :: ds
  · obtain ⟨ds, rfl⟩ := hpoint
    have hdigits : pointedDigits ('.' :: ds) = ds.takeWhile Char.isDigit := rfl
    rw [hdigits]
    cases ds with
    | nil => exact .inr ⟨rfl, rfl⟩
    | cons d ds =>
      cases hd : d.isDigit with
      | true =>
        refine .inl ⟨hd, rfl, ?_⟩
        rw [List.takeWhile_cons, if_pos hd]
        exact List.cons_ne_nil _ _
      | false => exact .inr ⟨hd, by rw [List.takeWhile_cons, if_neg (by simp [hd])]⟩
  · refine .inr ⟨?_, ?_⟩
    · cases cs with
      | nil => rfl
      | cons c cs =>
        have hc : c ≠ '.' := by
          rintro rfl
          exact hpoint ⟨cs, rfl⟩
        simp [hc]
    · unfold pointedDigits
      split
      · exact absurd ⟨_, rfl⟩ hpoint
      · rfl

/-- Where a numeral starts, its digits are found in place. -/
theorem mantissaEnd_eq (hstart : startsNumeral (bs.drop start) = true) :
    mantissaEnd bs start = start + (plainText ((bs.drop start).takeWhile Char.isDigit)
      (pointedDigits ((bs.drop start).dropWhile Char.isDigit))).length := by
  have hne := ne_nil_of_startsNumeral hstart
  rw [mantissaEnd, length_plainText]
  simp only [byteIs_eq, skip_eq, ← List.tail_drop, drop_add_takeWhile]
  generalize bs.drop start = cs at hne
  by_cases hpoint : cs.head?.any (· = '.') = true
  · -- With a point in front there are digits behind it.
    rw [if_pos hpoint]
    obtain ⟨ds, rfl⟩ : ∃ ds, cs = '.' :: ds := by
      cases cs with
      | nil => cases hpoint
      | cons c ds => exact ⟨ds, by rw [of_decide_eq_true hpoint]⟩
    have hdigits : ds.takeWhile Char.isDigit ≠ [] := hne.resolve_left fun h => h rfl
    show start + 1 + (ds.takeWhile Char.isDigit).length =
      start + (0 + if ds.takeWhile Char.isDigit = [] then 0
        else (ds.takeWhile Char.isDigit).length + 1)
    rw [if_neg hdigits]
    omega
  · rw [if_neg hpoint]
    rcases pointedDigits_cases (cs.dropWhile Char.isDigit) with ⟨hfound, heq, hsome⟩ | ⟨hnot, hnone⟩
    · rw [if_pos hfound, if_neg hsome, heq]
      omega
    · have hend : (cs.dropWhile Char.isDigit).takeWhile Char.isDigit = [] := by
        have hhead := List.head?_dropWhile_not Char.isDigit cs
        cases hrest : cs.dropWhile Char.isDigit with
        | nil => rfl
        | cons c ds =>
          rw [hrest] at hhead
          exact List.takeWhile_cons_of_neg (Bool.eq_false_iff.mp hhead)
      rw [hnot, if_neg Bool.false_ne_true, if_pos hnone, hend]
      rfl

/-- The digits of an exponent begin behind its sign. -/
theorem firstDigit_eq {sign body : List Char} (hsign : IsSign sign)
    (hbody : sign = [] → ∀ c ∈ body.head?, ¬ IsSign [c]) (hrest : bs.drop i = sign ++ body) :
    (if byteIs (fun c => c = '+' || c = '-') bs i then i + 1 else i) = i + sign.length := by
  rw [byteIs_eq, hrest]
  rcases hsign with rfl | rfl | rfl
  · refine if_neg ?_
    cases body with
    | nil => exact Bool.false_ne_true
    | cons c body =>
      have hc := hbody rfl c rfl
      intro h
      rcases Bool.or_eq_true_iff.mp h with hplus | hminus
      · exact hc (.inr (.inl (congrArg ([·]) (of_decide_eq_true hplus))))
      · exact hc (.inr (.inr (congrArg ([·]) (of_decide_eq_true hminus))))
  · rfl
  · rfl

/-- **The end of a numeral is found in place.** -/
theorem numeralEnd_eq (hstart : startsNumeral (bs.drop start) = true) :
    numeralEnd bs start = match numeral (bs.drop start) with
      | .error before => .error (start + before)
      | .ok (_, width) => .ok (start + width) := by
  have hmantissa := mantissaEnd_eq hstart
  rw [numeral_eq, List.drop_drop, ← hmantissa, numeralEnd]
  generalize mantissaEnd bs start = i at hmantissa ⊢
  dsimp only
  cases htail : bs.drop i with
  | nil =>
    rw [byteIs_eq, htail]
    exact congrArg Except.ok hmantissa
  | cons e rest =>
    have hletter : byteIs (fun c => c = 'e' || c = 'E') bs i = decide (e = 'e' ∨ e = 'E') := by
      rw [byteIs_eq, htail]
      exact (Bool.decide_or _ _).symm
    rw [hletter]
    by_cases he : e = 'e' ∨ e = 'E'
    · obtain ⟨sign, body, rfl, hsign, hbody⟩ := exists_sign rest
      have hrest : bs.drop (i + 1) = sign ++ body := by rw [← List.tail_drop, htail, List.tail_cons]
      rw [behindDigits_append hsign hbody he, if_pos (decide_eq_true he),
        firstDigit_eq hsign hbody hrest, skip_eq, ← List.drop_drop, hrest, List.drop_left]
      by_cases hnone : body.takeWhile Char.isDigit = []
      · rw [if_pos hnone, hnone, List.length_nil, Nat.add_zero, if_pos rfl]
        exact congrArg Except.error hmantissa
      · have hpos := List.length_pos_of_ne_nil hnone
        rw [if_neg hnone, if_neg (by omega)]
        refine congrArg Except.ok ?_
        rw [List.length_cons, List.length_append]
        omega
    · rw [decide_eq_false he, if_neg Bool.false_ne_true, behindDigits_of_ne he]
      exact congrArg Except.ok hmantissa

end

/-! ### Tokens -/

/-- What can go wrong while tokens are read in place. -/
inductive Mishap where
  /-- A text is cut inside a character, or behind its end. -/
  | cut
  /-- The text of a numeral cannot be read. -/
  | invalidNumber
  deriving DecidableEq, Repr

/-- The part of a text between two offsets. -/
def cut (s : String) (start stop : Nat) : Except (Mishap ⊕ LexicalError × Nat) String :=
  match slice? s start stop with
  | some text => .ok text
  | none => .error (.inl .cut)

/-- The number that the text of a numeral denotes. -/
def valueOf (text : String) : Except (Mishap ⊕ LexicalError × Nat) Float32 :=
  match read? text.toList with
  | some value => .ok value
  | none => .error (.inl .invalidNumber)

/-- The number at an offset where a numeral starts. -/
def numberAt (s : String) (start : Nat) : Except (Mishap ⊕ LexicalError × Nat) Token :=
  match numeralEnd (bytes s) start with
  | .error place => .error (.inr (.exponentDigits, place))
  | .ok stop => do
    let text ← cut s start stop
    let value ← valueOf text
    if value.isFinite then return ⟨.number value, start, stop⟩
    else throw (.inr (.outOfRange text, start))

/-- The name at an offset where one starts. -/
def nameAt (s : String) (start : Nat) : Except (Mishap ⊕ LexicalError × Nat) Token := do
  let stop := skip isNamePart (bytes s) (start + 1)
  return ⟨.name (← cut s start stop), start, stop⟩

/-- The token at an offset. -/
def tokenAt (s : String) (start : Nat) (h : start < (bytes s).length) :
    Except (Mishap ⊕ LexicalError × Nat) Token :=
  let c := (bytes s)[start]
  if c.isDigit || c = '.' && byteIs Char.isDigit (bytes s) (start + 1) then numberAt s start
  else if isNameStart c then nameAt s start
  else match signOf? c with
    | some sign => .ok ⟨sign, start, start + 1⟩
    | none => .error (.inr (.unexpected c, start))

section
variable {s : String} {start : Nat} {c : Char} {cs : List Char}

theorem startsNumeral_drop (h : start < (bytes s).length) :
    startsNumeral ((bytes s).drop start) = ((bytes s)[start].isDigit ||
      (bytes s)[start] = '.' && byteIs Char.isDigit (bytes s) (start + 1)) := by
  rw [byteIs_eq, List.drop_eq_getElem_cons h]
  generalize (bytes s)[start] = c
  by_cases hc : c = '.'
  · subst hc
    cases (bytes s).drop (start + 1) with
    | nil => rfl
    | cons d ds => rfl
  · rw [startsNumeral_cons hc, decide_eq_false hc, Bool.false_and, Bool.or_false]

theorem numeralEnd_of_numberAt {t : Token} (ht : numberAt s start = .ok t) :
    numeralEnd (bytes s) start = .ok t.stop := by
  unfold numberAt at ht
  split at ht
  · cases ht
  · rename_i stop hstop
    cases hcut : cut s start stop with
    | error e =>
      rw [hcut] at ht
      cases ht
    | ok text =>
      cases hvalue : valueOf text with
      | error e =>
        simp only [hcut, hvalue, bind, Except.bind] at ht
        cases ht
      | ok value =>
        simp only [hcut, hvalue, bind, Except.bind] at ht
        split at ht
        · cases ht
          exact hstop
        · cases ht

theorem skip_of_nameAt {t : Token} (ht : nameAt s start = .ok t) :
    t.stop = skip isNamePart (bytes s) (start + 1) := by
  unfold nameAt at ht
  dsimp only at ht
  cases hcut : cut s start (skip isNamePart (bytes s) (start + 1)) with
  | error e =>
    rw [hcut] at ht
    cases ht
  | ok text =>
    rw [hcut] at ht
    cases ht
    rfl

/-- **Every token moves the offset on.** -/
theorem lt_stop_of_tokenAt {t : Token} {h : start < (bytes s).length}
    (ht : tokenAt s start h = .ok t) : start < t.stop := by
  rw [tokenAt, ← startsNumeral_drop h] at ht
  split at ht
  · rename_i hstart
    have hend := numeralEnd_of_numberAt ht
    rw [numeralEnd_eq hstart] at hend
    cases hnumeral : numeral ((bytes s).drop start) with
    | error before =>
      rw [hnumeral] at hend
      cases hend
    | ok taken =>
      have hpos := pos_of_numeral hstart hnumeral
      rw [hnumeral] at hend
      have hstop := Except.ok.inj hend
      omega
  · split at ht
    · have hstop := skip_of_nameAt ht
      rw [skip_eq] at hstop
      omega
    · split at ht
      · cases ht
        exact Nat.lt_succ_self _
      · cases ht

/-- A text can be cut at an offset, and behind any ASCII bytes that follow it. -/
def CutsAt (s : String) (start : Nat) : Prop := ∀ text rest,
  (bytes s).drop start = text ++ rest → IsAscii text →
    cut s start (start + text.length) = .ok (String.ofList text)

theorem numberAt_eq (hcuts : CutsAt s start) (hdrop : (bytes s).drop start = cs)
    (hstart : startsNumeral cs = true) :
    numberAt s start = match numeral cs with
      | .error before => .error (.inr (.exponentDigits, start + before))
      | .ok (n, width) => if n.value.isFinite then .ok ⟨.number n.value, start, start + width⟩
        else .error (.inr (.outOfRange (String.ofList (cs.take width)), start)) := by
  rw [numberAt, numeralEnd_eq (hdrop ▸ hstart), hdrop]
  cases hnumeral : numeral cs with
  | error before => rfl
  | ok taken =>
    obtain ⟨n, width⟩ := taken
    obtain ⟨text, rest, hcs, rfl, hmem, hparts, -⟩ := numeral_eq_ok hstart hnumeral
    have hcut := hcuts text rest (hdrop.trans hcs) (isAscii_of_mem_numerals hmem)
    have hvalue : valueOf (String.ofList text) = .ok n.value := by
      rw [valueOf, String.toList_ofList, read?_of_mem_numerals hmem, hparts]
      rfl
    have htake : cs.take text.length = text := by rw [hcs, List.take_left]
    dsimp only [bind, Except.bind]
    rw [hcut, htake]
    dsimp only
    rw [hvalue]
    rfl

theorem nameAt_eq (hcuts : CutsAt s start) (hdrop : (bytes s).drop start = c :: cs)
    (hname : isNameStart c = true) :
    nameAt s start = .ok ⟨.name (String.ofList (c :: cs.takeWhile isNamePart)), start,
      start + 1 + (cs.takeWhile isNamePart).length⟩ := by
  have hascii := isAscii_of_mem_names (mem_names_takeWhile hname cs)
  have hcs : c :: cs = (c :: cs.takeWhile isNamePart) ++ cs.dropWhile isNamePart := by
    rw [List.cons_append, List.takeWhile_append_dropWhile]
  have hstop : skip isNamePart (bytes s) (start + 1) =
      start + 1 + (cs.takeWhile isNamePart).length := by
    rw [skip_eq, ← List.tail_drop, hdrop, List.tail_cons]
  have hcut := hcuts _ _ (hdrop.trans hcs) hascii
  rw [List.length_cons, Nat.add_comm _ 1, ← Nat.add_assoc] at hcut
  rw [nameAt, hstop, hcut]
  rfl

/-- What is read in place where a text can be cut is the longest token there. -/
theorem tokenAt_eq (h : start < (bytes s).length) (hcuts : CutsAt s start)
    (hdrop : (bytes s).drop start = c :: cs) :
    tokenAt s start h = match munch c cs with
      | .error (error, before) => .error (.inr (error, start + before))
      | .ok (lexeme, more) => .ok ⟨lexeme, start, start + 1 + more⟩ := by
  have hc : (bytes s)[start] = c := by
    rw [List.drop_eq_getElem_cons h] at hdrop
    exact (List.cons.inj hdrop).1
  rw [tokenAt, munch, ← startsNumeral_drop h, hc, hdrop]
  dsimp only
  by_cases hstart : startsNumeral (c :: cs) = true
  · rw [if_pos hstart, if_pos hstart, numberAt_eq hcuts hdrop hstart]
    cases hnumeral : numeral (c :: cs) with
    | error before => rfl
    | ok taken =>
      obtain ⟨n, width⟩ := taken
      have hpos := pos_of_numeral hstart hnumeral
      have hstop : start + 1 + (width - 1) = start + width := by omega
      dsimp only
      by_cases hfinite : n.value.isFinite = true
      · rw [if_pos hfinite, if_pos hfinite, ← hstop]
      · rw [if_neg hfinite, if_neg hfinite]
        rfl
  · rw [if_neg hstart, if_neg hstart]
    by_cases hname : isNameStart c = true
    · rw [if_pos hname, if_pos hname, nameAt_eq hcuts hdrop hname]
    · rw [if_neg hname, if_neg hname]
      cases signOf? c with
      | some sign => rfl
      | none => rfl

end

/-! ### Texts -/

/-- The tokens from an offset on. -/
def tokensFrom (s : String) (i : Nat) : Except (Mishap ⊕ LexicalError × Nat) (List Token) :=
  if h : i < (bytes s).length then
    if isBlank (bytes s)[i] then tokensFrom s (i + 1)
    else match ht : tokenAt s i h with
      | .error e => .error e
      | .ok t => (tokensFrom s t.stop).map (t :: ·)
  else .ok []
termination_by (bytes s).length - i
decreasing_by
  · omega
  · have hlt := lt_stop_of_tokenAt ht
    omega

/-- The tokens of a text, read in place. -/
def lexInPlace (s : String) : Except (Mishap ⊕ LexicalError × Nat) Tokens :=
  (tokensFrom s 0).map fun body => ⟨body, (bytes s).length⟩

section
variable {s : String} {i : Nat} {c : Char} {cs : List Char}

theorem getElem_of_drop (hdrop : (bytes s).drop i = c :: cs) :
    ∃ h : i < (bytes s).length, (bytes s)[i] = c := by
  have hget := (getElem?_of_drop hdrop).1
  exact List.getElem?_eq_some_iff.mp hget

theorem tokensFrom_blank (hdrop : (bytes s).drop i = c :: cs) (hblank : isBlank c = true) :
    tokensFrom s i = tokensFrom s (i + 1) := by
  obtain ⟨h, rfl⟩ := getElem_of_drop hdrop
  rw [tokensFrom, dif_pos h, if_pos hblank]

theorem tokensFrom_cons (hcuts : CutsAt s i) (hdrop : (bytes s).drop i = c :: cs)
    (hblank : isBlank c = false) :
    tokensFrom s i = match munch c cs with
      | .error (error, before) => .error (.inr (error, i + before))
      | .ok (lexeme, more) =>
        (tokensFrom s (i + 1 + more)).map (⟨lexeme, i, i + 1 + more⟩ :: ·) := by
  obtain ⟨h, rfl⟩ := getElem_of_drop hdrop
  have htoken := tokenAt_eq h hcuts hdrop
  rw [tokensFrom, dif_pos h, if_neg (by simp [hblank])]
  split
  · rename_i e herror
    rw [herror] at htoken
    cases hmunch : munch (bytes s)[i] cs with
    | error e =>
      rw [hmunch] at htoken
      cases htoken
      rfl
    | ok taken =>
      rw [hmunch] at htoken
      cases htoken
  · rename_i t ht
    rw [ht] at htoken
    cases hmunch : munch (bytes s)[i] cs with
    | error e =>
      rw [hmunch] at htoken
      cases htoken
    | ok taken =>
      rw [hmunch] at htoken
      cases htoken
      rfl

end

theorem drop_bytes (before cs : List Char) :
    (bytes (String.ofList (before ++ cs))).drop (bytes (String.ofList before)).length =
      bytes (String.ofList cs) := by
  rw [bytes_append, List.drop_left]

theorem length_bytes_append (before : List Char) {ds : List Char} (hds : IsAscii ds) :
    (bytes (String.ofList (before ++ ds))).length =
      (bytes (String.ofList before)).length + ds.length := by
  rw [bytes_append, List.length_append, bytes_of_isAscii hds]

/-- **A text can be cut where a character begins.** -/
theorem cutsAt (before cs : List Char) :
    CutsAt (String.ofList (before ++ cs)) (bytes (String.ofList before)).length := by
  intro text rest htext hascii
  rw [drop_bytes] at htext
  have hlength : text.length ≤ (bytes (String.ofList cs)).length := by
    rw [htext, List.length_append]
    exact Nat.le_add_right _ _
  have htake : (bytes (String.ofList cs)).take text.length = text := by
    rw [htext, List.take_left]
  obtain ⟨ds, es, rfl, hds, hwidth⟩ := exists_append_of_take hlength (htake.symm ▸ hascii)
  obtain rfl : ds = text := by
    rw [bytes_append, bytes_of_isAscii hds] at htext
    exact (List.append_inj htext hwidth).1
  have hslice := slice?_append (String.ofList before) (String.ofList ds) (String.ofList es)
  rw [← length_bytes, ← length_bytes, bytes_of_isAscii hds, ← String.ofList_append,
    ← String.ofList_append] at hslice
  rw [cut, hslice]

/-- Reading in place follows the characters of a text. -/
theorem Scans.tokensFrom_eq {offset : Nat} {cs : List Char} {outcome}
    (h : Scans offset cs outcome) (before : List Char)
    (hoffset : (bytes (String.ofList before)).length = offset) :
    tokensFrom (String.ofList (before ++ cs)) offset = outcome.mapError .inr := by
  -- At each step a character begins at the offset, so the text can be cut there (`cutsAt`).
  induction h generalizing before with
  | done =>
    subst hoffset
    rw [List.append_nil, tokensFrom, dif_neg (Nat.lt_irrefl _)]
    rfl
  | @foreign _ c b cs bs hc hbytes hb =>
    subst hoffset
    obtain ⟨hblank, hmunch⟩ := refuses_foreign hb.1 hb.2 bs
    have hdrop := (drop_bytes before (c :: cs)).trans hbytes
    rw [tokensFrom_cons (cutsAt _ _) hdrop hblank, hmunch]
    rfl
  | @blank _ c cs outcome hc hblank hrest ih =>
    subst hoffset
    have hdrop := (drop_bytes before (c :: cs)).trans (bytes_cons_of_lt hc cs)
    have hfirst : IsAscii [c] := List.forall_mem_singleton.mpr hc
    have hnext := ih (before ++ [c]) (length_bytes_append before hfirst)
    rw [List.append_assoc, List.singleton_append] at hnext
    rw [tokensFrom_blank hdrop hblank, hnext]
  | @refused _ _ c cs error hc hblank hmunch =>
    subst hoffset
    have hdrop := (drop_bytes before (c :: cs)).trans (bytes_cons_of_lt hc cs)
    rw [tokensFrom_cons (cutsAt _ _) hdrop hblank, hmunch]
    rfl
  | @token _ c text rest lexeme outcome hascii hblank hmunch hrest ih =>
    subst hoffset
    obtain ⟨hc, htext⟩ := isAscii_cons.mp hascii
    have hbytes : bytes (String.ofList (c :: text ++ rest)) =
        c :: (text ++ bytes (String.ofList rest)) := by
      rw [bytes_append, bytes_of_isAscii hascii, List.cons_append]
    have hdrop := (drop_bytes before (c :: text ++ rest)).trans hbytes
    have hlength := length_bytes_append before hascii
    rw [List.length_cons, Nat.add_comm text.length, ← Nat.add_assoc] at hlength
    have hnext := ih (before ++ c :: text) hlength
    rw [List.append_assoc] at hnext
    rw [tokensFrom_cons (cutsAt _ _) hdrop hblank, hmunch]
    dsimp only
    rw [hnext]
    cases outcome with
    | error e => rfl
    | ok tokens => rfl

/-- **Reading in place never fails, but for the errors of the text.** -/
theorem lexInPlace_eq (s : String) : lexInPlace s = (lex s).mapError .inr := by
  have htokens := (scans 0 s.toList).tokensFrom_eq [] (by rw [bytes_ofList]; rfl)
  rw [List.nil_append, String.ofList_toList] at htokens
  rw [lexInPlace, htokens, lex_eq]
  cases scan 0 (bytes s) with
  | error e => rfl
  | ok body => rfl

/-- **The tokens of any text.**  Reading it in place ends in its tokens or in an error of the text:
no cut is inside a character, and no numeral that is found is none (`Mishap`).  A text that has
tokens is ASCII.  The end of the text is the last one of them and only this one; the others are in
their places (`Spans`), where each is the longest of its kind, a name, a finite number that is not
negative, or the byte of a sign.  In a text with another character an error is found in front of
the character or at its first byte. -/
theorem lex_of_any_text (s : String) :
    lexInPlace s = (lex s).mapError .inr ∧
    (∀ tokens, lex s = .ok tokens → IsAscii s.toList ∧ ∃ body,
      tokens.toList = body ++ [⟨.endOfText, s.utf8ByteSize, s.utf8ByteSize⟩] ∧
      (∀ t ∈ body, t.lexeme ≠ .endOfText) ∧ Spans s.toList body) ∧
    ∀ before c after, s.toList = before ++ c :: after → 128 ≤ c.toNat →
      ∃ error place, lex s = .error (error, place) ∧
        place ≤ (String.ofList before).utf8ByteSize := by
  refine ⟨lexInPlace_eq s, fun tokens h => ?_, fun before c after hs hc => ?_⟩
  · have hascii := isAscii_of_lex h
    have hbytes := bytes_of_isAscii hascii
    rw [String.ofList_toList] at hbytes
    rw [lex_eq] at h
    cases hscan : scan 0 (bytes s) with
    | error e =>
      rw [hscan] at h
      cases h
    | ok body =>
      rw [hscan] at h
      cases h
      have htiling := tiling_of_scan hscan rfl
      refine ⟨hascii, body, ?_, fun t ht => htiling.ne_endOfText ht, ?_⟩
      · rw [Tokens.toList, length_bytes]
      · rw [← hbytes]
        exact htiling.spans
  · rw [← String.ofList_toList (s := s), hs]
    exact lex_of_not_isAscii before after hc

/-- A call with a number, and two names with a blank between them that is not ASCII. -/
theorem lex_of_any_text_call :
    Spans "x(.5e1)".toList [⟨.name "x", 0, 1⟩, ⟨.openParen, 1, 2⟩, ⟨.number 5, 2, 6⟩,
      ⟨.closeParen, 6, 7⟩] ∧
    ∃ error place, lex "x\u00a0y" = .error (error, place) ∧ place ≤ 1 := by
  have hlex : lex "x(.5e1)" = .ok ⟨[⟨.name "x", 0, 1⟩, ⟨.openParen, 1, 2⟩, ⟨.number 5, 2, 6⟩,
      ⟨.closeParen, 6, 7⟩], 7⟩ := by decide +kernel
  obtain ⟨-, body, hbody, -, hspans⟩ := (lex_of_any_text "x(.5e1)").2.1 _ hlex
  obtain ⟨rfl, -⟩ := List.append_inj' hbody rfl
  exact ⟨hspans, (lex_of_any_text "x\u00a0y").2.2 ['x'] '\u00a0' ['y'] rfl (by decide)⟩

end GrammarArt.Expression
