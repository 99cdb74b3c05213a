import GrammarArt.Text.Blank
import GrammarArt.Text.Bytes

/-! # Texts that are read as they are

A text is read as its bytes, without the blank characters at its ends.  An ASCII text is its
own list of bytes (`bytes_of_isAscii`), and nothing is trimmed off a text whose first and
last characters are not blank (`trim_eq_self`).
-/
namespace GrammarArt.Text

/-! ### Bytes -/

theorem toList_loop_eq (b : ByteArray) (i : Nat) (r : List UInt8) :
    ByteArray.toList.loop b i r = r.reverse ++ b.data.toList.drop i := by
  fun_induction ByteArray.toList.loop b i r with
  | case1 i r hi ih =>
    have hlt : i < b.data.toList.length := hi
    have hget : b.get! i = b.data.toList[i] := getElem!_pos b.data i hi
    rw [ih, List.reverse_cons, List.append_assoc, hget, List.drop_eq_getElem_cons hlt]
    rfl
  | case2 i r hi =>
    have hle : b.data.toList.length ≤ i := Nat.le_of_not_lt hi
    rw [List.drop_eq_nil_of_le hle, List.append_nil]

theorem toList_eq (b : ByteArray) : b.toList = b.data.toList := toList_loop_eq b 0 []

/-- The bytes of a text are those of its characters, one after the other. -/
theorem bytes_ofList (cs : List Char) : bytes (String.ofList cs) =
    cs.flatMap fun c => (String.utf8EncodeChar c).map fun b => Char.ofNat b.toNat := by
  rw [bytes, String.toUTF8_eq_toByteArray, String.toByteArray_ofList, toList_eq,
    List.utf8Encode, List.toList_data_toByteArray, List.map_flatMap]

/-- The characters of a text are ASCII. -/
def IsAscii (cs : List Char) : Prop := ∀ c ∈ cs, c.toNat < 128

theorem isAscii_append {cs ds : List Char} : IsAscii (cs ++ ds) ↔ IsAscii cs ∧ IsAscii ds :=
  List.forall_mem_append

theorem isAscii_cons {c : Char} {cs : List Char} :
    IsAscii (c :: cs) ↔ c.toNat < 128 ∧ IsAscii cs := List.forall_mem_cons

theorem utf8EncodeChar_of_lt {c : Char} (h : c.toNat < 128) :
    (String.utf8EncodeChar c).map (fun b => Char.ofNat b.toNat) = [c] := by
  have hval : c.val ≤ 0x7f := UInt32.le_iff_toNat_le.mpr (Nat.le_of_lt_succ h)
  have hsize : c.utf8Size = 1 := if_pos hval
  have hnat : c.val.toUInt8.toNat = c.toNat := by
    rw [UInt32.toNat_toUInt8]
    exact Nat.mod_eq_of_lt (Nat.lt_trans h (by decide))
  rw [String.utf8EncodeChar_eq_singleton hsize, List.map_singleton, hnat, Char.ofNat_toNat]

/-- **An ASCII text is its own list of bytes.** -/
theorem bytes_of_isAscii {cs : List Char} (h : IsAscii cs) : bytes (String.ofList cs) = cs := by
  rw [bytes_ofList]
  induction cs with
  | nil => rfl
  | cons c cs ih =>
    obtain ⟨hc, hcs⟩ := isAscii_cons.mp h
    rw [List.flatMap_cons, utf8EncodeChar_of_lt hc, ih hcs]
    rfl

/-! ### Trimming -/

theorem dropWhile_isBlank {cs : List Char} (h : ∀ c ∈ cs.head?, isBlank c = false) :
    cs.dropWhile isBlank = cs := by
  cases cs with
  | nil => rfl
  | cons c cs => rw [List.dropWhile_cons, if_neg (by simp [h c rfl])]

/-- **Nothing is trimmed off a text that neither begins nor ends with a blank character.** -/
theorem trim_eq_self {cs : List Char} (hfirst : ∀ c ∈ cs.head?, isBlank c = false)
    (hlast : ∀ c ∈ cs.getLast?, isBlank c = false) : trim cs = cs := by
  rw [← List.head?_reverse] at hlast
  rw [trim, dropWhile_isBlank hfirst, trimEnd, dropWhile_isBlank hlast, List.reverse_reverse]

end GrammarArt.Text
