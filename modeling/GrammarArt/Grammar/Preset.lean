/-! # Grammars at hand

Named grammars, each with the depth it is best derived at.
-/
namespace GrammarArt

/-- A named grammar. -/
structure Preset where
  name : String
  depth : Nat
  text : String
  deriving DecidableEq, Repr

namespace Preset

/-- The rule that the images of most presets start from: three channels of their own. -/
def channels : String := "A :: triple(B,B,B):1\n"

/-- The rule of the smooth operations, with equal weights. -/
def smooth : String :=
  "B :: Z:1 | sin(B):1 | cos(B):1 | exp(B):1 | sqrt(B):1 | tan(B):1 | sum(B,B):1 | "
    ++ "mult(B,B):1 | mix(B,B,B):1\n"

/-- Smooth operations on the coordinates and on colors. -/
def basic : Preset := ⟨"basic", 12, channels ++ smooth ++ "Z :: x:1 | y:1 | rgb:1"⟩

/-- All presets. -/
def all : List Preset :=
  [basic,
    ⟨"all", 12, channels
      ++ "B :: Z:1 | sin(B):1 | cos(B):1 | tan(B):1 | exp(B):1 | sqrt(B):1 | sum(B,B):1 | "
      ++ "mult(B,B):1 | mod(B,B):1 | mix(B,B,B):1 | level(B,B,B):1\n"
      ++ "Z :: x:1 | y:1 | rgb:1 | bw:1"⟩,
    ⟨"waves", 12, channels
      ++ "B :: Z:1 | sin(B,2):6 | sum(B,B):1 | mult(B,B):1 | mix(B,B,B):1\n"
      ++ "Z :: x:2 | y:2 | rgb:1 | bw:1"⟩,
    ⟨"gradients", 5, channels ++ "B :: Z:1 | mix(B,B,B):2\nZ :: x:1 | y:1 | rgb:1"⟩,
    ⟨"animated", 12, channels ++ smooth ++ "Z :: x:1 | y:1 | rgb:1 | t:1"⟩,
    ⟨"audio", 12, channels ++ smooth ++ "Z :: x:1 | y:1 | rgb:1 | low:1 | mid:1 | hi:1"⟩,
    ⟨"audioDetailed", 12, channels ++ smooth
      ++ "Z :: x:1 | y:1 | rgb:1 | subbass:1 | bass:1 | lowmidrange:1 | midrange:1 | "
      ++ "uppermidrange:1 | presence:1 | brilliance:1"⟩]

/-- The preset of a name. -/
def ofName? (name : String) : Option Preset := all.find? fun p => p.name = name

end Preset

end GrammarArt
