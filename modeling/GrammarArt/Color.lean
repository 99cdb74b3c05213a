/-! # Colors and pixels

A color has three channels between `-1` and `1`.  A pixel has three bytes; a channel is
mapped to the byte nearest to its place between the two ends.
-/
namespace GrammarArt

/-- A color, one number for each channel. -/
structure Color where
  red : Float32
  green : Float32
  blue : Float32
  deriving DecidableEq, Repr

namespace Color

/-- The color with one value in all channels. -/
def gray (v : Float32) : Color := ⟨v, v, v⟩

/-- The color with every channel in the middle. -/
def zero : Color := gray 0

instance : Inhabited Color := ⟨zero⟩

/-- A function applied in each channel. -/
@[inline] def map (f : Float32 → Float32) (a : Color) : Color := ⟨f a.red, f a.green, f a.blue⟩

/-- A function of two arguments applied in each channel. -/
@[inline] def map₂ (f : Float32 → Float32 → Float32) (a b : Color) : Color :=
  ⟨f a.red b.red, f a.green b.green, f a.blue b.blue⟩

/-- A function of three arguments applied in each channel. -/
@[inline] def map₃ (f : Float32 → Float32 → Float32 → Float32) (a b c : Color) : Color :=
  ⟨f a.red b.red c.red, f a.green b.green c.green, f a.blue b.blue c.blue⟩

end Color

/-- A number moved into `[-1, 1]`, unless it lies there or is not a number. -/
def clamp (v : Float32) : Float32 := if v < -1 then -1 else if 1 < v then 1 else v

/-- A number moved into `[-1, 1]`; what is not a number becomes zero. -/
def clampUnit (v : Float32) : Float32 := if v.isNaN then 0 else clamp v

/-- The byte of a channel: `-1` is 0, `1` is 255, a half is rounded up, and what is not a
number is 0. -/
def channelByte (v : Float32) : UInt8 := ((clamp v + 1) * 127.5).round.toUInt8

/-- An opaque pixel. -/
structure Pixel where
  red : UInt8
  green : UInt8
  blue : UInt8
  deriving DecidableEq, Repr

/-- The bytes of a pixel, the last one being its full opacity. -/
def Pixel.bytes (p : Pixel) : List UInt8 := [p.red, p.green, p.blue, 255]

/-- The pixel of a color. -/
def Color.pixel (c : Color) : Pixel :=
  ⟨channelByte c.red, channelByte c.green, channelByte c.blue⟩

end GrammarArt
