import GrammarArt.Frame

/-! # Frames as PNG files

A frame is written as one image of eight bits a channel with opacity, its rows unfiltered
and its data in stored blocks, that is, without compression.
-/
namespace GrammarArt.Png

/-- The four bytes of a word, the highest one first. -/
def wordBytes (n : Nat) : List UInt8 := [24, 16, 8, 0].map fun k => (n >>> k).toUInt8

/-- A word of the checksum table after one more division step. -/
def divisionStep (c : UInt32) : UInt32 :=
  if c &&& 1 = 1 then (0xEDB88320 : UInt32) ^^^ (c >>> 1) else c >>> 1

/-- The checksum CRC-32 after one more byte. -/
def checkStep (c : UInt32) (b : UInt8) : UInt32 :=
  let folded := Nat.repeat divisionStep 8 ((c ^^^ b.toUInt32) &&& 0xFF)
  folded ^^^ (c >>> 8)

/-- The checksum CRC-32 of bytes. -/
def check (bytes : ByteArray) : UInt32 := bytes.foldl checkStep 0xFFFFFFFF ^^^ 0xFFFFFFFF

/-- The checksum Adler-32 of bytes. -/
def adler (bytes : ByteArray) : Nat :=
  let (a, b) := bytes.foldl
    (fun (a, b) byte =>
      let a := (a + byte.toNat) % 65521
      (a, (b + a) % 65521))
    (1, 0)
  b * 65536 + a

/-- A chunk: its length, its kind, its data and the checksum of the latter two. -/
def chunk (kind : String) (data : ByteArray) : ByteArray :=
  let body := kind.toUTF8 ++ data
  ⟨(wordBytes data.size).toArray⟩ ++ body ++ ⟨(wordBytes (check body).toNat).toArray⟩

/-- A stored block of at most 65535 bytes, from `offset` on. -/
def storedBlock (bytes : ByteArray) (offset : Nat) : ByteArray :=
  let block := bytes.extract offset (offset + 65535)
  let final : UInt8 := if bytes.size ≤ offset + 65535 then 1 else 0
  let size := block.size
  let rest := 65535 - size
  ⟨#[final, size.toUInt8, (size / 256).toUInt8, rest.toUInt8, (rest / 256).toUInt8]⟩ ++ block

/-- Bytes in stored blocks, with the header and the checksum of the format zlib. -/
def stored (bytes : ByteArray) : ByteArray :=
  let blocks := (List.range ((bytes.size + 65534) / 65535)).map fun i =>
    storedBlock bytes (65535 * i)
  blocks.foldl (· ++ ·) ⟨#[0x78, 0x01]⟩ ++ ⟨(wordBytes (adler bytes)).toArray⟩

/-- The rows of a frame, each behind the number of its filter. -/
def rows (frame : Frame) : ByteArray :=
  (List.range frame.height).foldl
    (fun bytes row =>
      let pixels := frame.pixels.extract (row * frame.width) ((row + 1) * frame.width)
      pixels.foldl (fun bytes p => p.bytes.foldl ByteArray.push bytes) (bytes.push 0))
    ByteArray.empty

/-- The file of a frame. -/
def encode (frame : Frame) : ByteArray :=
  let header := wordBytes frame.width ++ wordBytes frame.height ++ [8, 6, 0, 0, 0]
  ⟨#[0x89, 0x50, 0x4E, 0x47, 0x0D, 0x0A, 0x1A, 0x0A]⟩
    ++ chunk "IHDR" ⟨header.toArray⟩
    ++ chunk "IDAT" (stored (rows frame))
    ++ chunk "IEND" ByteArray.empty

end GrammarArt.Png
