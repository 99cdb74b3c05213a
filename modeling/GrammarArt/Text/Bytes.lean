/-! # Texts as bytes

Offsets in a text are counted in the bytes of its UTF-8 form, and expressions are read
byte by byte.  A byte is shown as the character with its code, so that an ASCII text is
its own list of bytes.
-/
namespace GrammarArt.Text

/-- The UTF-8 bytes of a text, each as the character with that code. -/
def bytes (s : String) : List Char := s.toUTF8.toList.map fun b => Char.ofNat b.toNat

end GrammarArt.Text
