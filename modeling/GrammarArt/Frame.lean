import GrammarArt.Memory
import GrammarArt.Tree.Eval

/-! # Frames

A frame is an image, its pixels stored row by row.  The pixels of a frame lie on a grid in
the unit square: column `0` is at `x = -1`, row `0` at `y = -1`, and the right and the lower
edge are left out.
-/
namespace GrammarArt

/-- An image, its pixels row by row. -/
structure Frame where
  width : Nat
  height : Nat
  pixels : Array Pixel
  deriving DecidableEq, Repr

namespace Frame

/-- The places of all pixels, row by row, each as a column and a row. -/
def places (width height : Nat) : List (Nat × Nat) :=
  (List.range height).flatMap fun row => (List.range width).map fun col => (col, row)

/-- The frame with a given pixel at each place. -/
def ofPlaces (width height : Nat) (paint : Nat → Nat → Pixel) : Frame where
  width := width
  height := height
  pixels := ((places width height).map fun (col, row) => paint col row).toArray

/-- The pixel of a column and a row.  Only the place in the list of all pixels is checked: a
column beyond the width counts on into the next row. -/
def pixel? (frame : Frame) (col row : Nat) : Option Pixel := frame.pixels[row * frame.width + col]?

/-- The bytes of a frame, four for each pixel. -/
def bytes (frame : Frame) : List UInt8 := frame.pixels.toList.flatMap Pixel.bytes

/-- The bytes of a pixel. -/
def pixelBytes : Nat := 4

/-- Why a frame has no size. -/
inductive SizeError where
  | empty (width height : Nat)
  /-- The bytes of the frame cannot be counted in 64 bits. -/
  | overflow (width height : Nat)
  deriving DecidableEq, Repr

/-- The text of a size error. -/
def SizeError.message : SizeError → String
  | empty width height => s!"frame size must be non-zero, got {width}x{height}"
  | overflow width height => s!"frame size {width}x{height} overflows"

/-- What is wrong with the size of a frame, if anything is. -/
def sizeError? (width height : Nat) : Option SizeError :=
  if width = 0 ∨ height = 0 then some (.empty width height)
  else if UInt64.size ≤ width * height * pixelBytes then some (.overflow width height)
  else none

/-- The coordinate of pixel `i` of `n`, for sizes of 32 bits. -/
def coordinate (i n : Nat) : Float32 :=
  2 * i.toUInt32.toFloat32 / n.toUInt32.toFloat32 - 1

/-- The point of a pixel at a time. -/
def point (width height : Nat) (time : Float32) (col row : Nat) : Point :=
  ⟨coordinate col width, coordinate row height, time⟩

end Frame

end GrammarArt
