import GrammarArt.Proofs.Text.Plain

/-! # Where characters begin among the bytes of a text

Offsets count bytes, and a text can be cut only at those at which a character begins or the text
ends (`slice?`).  A character that is not ASCII begins with a byte of at least 192
(`exists_bytes_cons`), which is larger than any blank byte; so whoever has come to the beginning
of a character, and goes on by ASCII bytes only, comes to the beginning of another one
(`exists_append_of_take`).
-/
namespace GrammarArt.Text

theorem bytes_append (cs ds : List Char) : bytes (String.ofList (cs ++ ds)) =
    bytes (String.ofList cs) ++ bytes (String.ofList ds) := by
  rw [bytes_ofList, bytes_ofList, bytes_ofList, List.flatMap_append]

theorem bytes_cons_of_lt {c : Char} (h : c.toNat < 128) (cs : List Char) :
    bytes (String.ofList (c :: cs)) = c :: bytes (String.ofList cs) := by
  rw [bytes_ofList, bytes_ofList, List.flatMap_cons, utf8EncodeChar_of_lt h]
  rfl

theorem length_bytes (s : String) : (bytes s).length = s.utf8ByteSize := by
  rw [bytes, List.length_map, toList_eq, Array.length_toList]
  rfl

theorem toNat_ofNat_byte (b : UInt8) : (Char.ofNat b.toNat).toNat = b.toNat := by
  have hvalid : b.toNat.isValidChar := .inl (Nat.lt_trans b.toNat_lt (by decide))
  rw [Char.ofNat, dif_pos hvalid]
  rfl

/-- **A character that is not ASCII begins with a byte that is neither ASCII nor blank.** -/
theorem exists_bytes_cons {c : Char} (h : 128 ≤ c.toNat) (cs : List Char) :
    ∃ b bs, bytes (String.ofList (c :: cs)) = b :: bs ∧ 192 ≤ b.toNat ∧ b.toNat < 256 := by
  have hlead : ∃ b bs, String.utf8EncodeChar c = b :: bs ∧ 192 ≤ b.toNat := by
    have hlarge : ¬ c.val.toNat ≤ 127 := Nat.not_le_of_lt h
    rw [String.utf8EncodeChar.eq_def]
    dsimp only
    rw [if_neg hlarge]
    split
    · refine ⟨_, _, rfl, ?_⟩
      rw [UInt8.toNat_ofNat']
      omega
    · split
      · refine ⟨_, _, rfl, ?_⟩
        rw [UInt8.toNat_ofNat']
        omega
      · refine ⟨_, _, rfl, ?_⟩
        rw [UInt8.toNat_ofNat']
        omega
  obtain ⟨b, bs, hbytes, hb⟩ := hlead
  rw [bytes_ofList, List.flatMap_cons, hbytes]
  refine ⟨_, _, rfl, ?_⟩
  rw [toNat_ofNat_byte]
  exact ⟨hb, b.toNat_lt⟩

/-- ASCII bytes at the beginning of a text are its first characters. -/
theorem exists_append_of_take {cs : List Char} {n : Nat}
    (hn : n ≤ (bytes (String.ofList cs)).length)
    (hascii : IsAscii ((bytes (String.ofList cs)).take n)) :
    ∃ ds es, cs = ds ++ es ∧ IsAscii ds ∧ ds.length = n := by
  induction n generalizing cs with
  | zero => exact ⟨[], cs, rfl, nofun, rfl⟩
  | succ n ih =>
    cases cs with
    | nil =>
      rw [bytes_ofList] at hn
      cases hn
    | cons c cs =>
      have hc : c.toNat < 128 := by
        refine Nat.lt_of_not_le fun hlarge => ?_
        obtain ⟨b, bs, hbytes, hb, -⟩ := exists_bytes_cons hlarge cs
        rw [hbytes] at hascii
        have hsmall := hascii b List.mem_cons_self
        omega
      rw [bytes_cons_of_lt hc] at hn hascii
      obtain ⟨ds, es, rfl, hds, hlength⟩ :=
        ih (Nat.le_of_succ_le_succ hn) (isAscii_cons.mp hascii).2
      exact ⟨c :: ds, es, rfl, isAscii_cons.mpr ⟨hc, hds⟩, congrArg (· + 1) hlength⟩

/-! ### Cutting a text -/

/-- The part of a text from one offset up to another one, if a character begins, or the text
ends, at either of them. -/
def slice? (s : String) (start stop : Nat) : Option String :=
  if h : String.Pos.Raw.IsValid s ⟨start⟩ ∧ String.Pos.Raw.IsValid s ⟨stop⟩ ∧ start ≤ stop then
    some (s.extract ⟨⟨start⟩, h.1⟩ ⟨⟨stop⟩, h.2.1⟩)
  else none

theorem slice?_append (before text after : String) :
    slice? (before ++ (text ++ after)) before.utf8ByteSize
      (before.utf8ByteSize + text.utf8ByteSize) = some text := by
  have hstart : String.Pos.Raw.IsValid (before ++ (text ++ after)) ⟨before.utf8ByteSize⟩ :=
    String.Pos.Raw.isValid_iff_exists_append.mpr ⟨before, text ++ after, rfl, rfl⟩
  have hstop : String.Pos.Raw.IsValid (before ++ (text ++ after))
      ⟨before.utf8ByteSize + text.utf8ByteSize⟩ := by
    refine String.Pos.Raw.isValid_iff_exists_append.mpr ⟨before ++ text, after, ?_, ?_⟩
    · rw [String.append_assoc]
    · rw [← String.utf8ByteSize_append]
      rfl
  rw [slice?, dif_pos ⟨hstart, hstop, Nat.le_add_right _ _⟩, Option.some_inj,
    ← String.toByteArray_inj, String.toByteArray_extract, String.toByteArray_append,
    String.toByteArray_append]
  show (before.toByteArray ++ (text.toByteArray ++ after.toByteArray)).extract
    (before.toByteArray.size + 0) (before.toByteArray.size + text.toByteArray.size) = _
  rw [ByteArray.extract_append_size_add, ByteArray.extract_append_eq_left rfl]

end GrammarArt.Text
