import GrammarArt.Frame
import GrammarArt.Program.Basic

/-! # Rendering in a single pass

A compiled tree is rendered by running its program once for every pixel.
-/
namespace GrammarArt

/-- What a compiled tree is run on. -/
inductive Executor where
  | cpu
  | gpu
  deriving DecidableEq, Repr

/-- The name of an executor. -/
def Executor.name : Executor → String
  | cpu => "cpu"
  | gpu => "gpu"

/-- Whether an executor is there to run programs.  Only the one that needs no adapter is. -/
def Executor.isAvailable : Executor → Bool
  | cpu => true
  | gpu => false

namespace Program

/-- The image that a program computes. -/
def raster (program : Program) (width height : Nat) (time : Float32) (feed : Feed) : Frame :=
  Frame.ofPlaces width height fun col row =>
    (program.eval (Frame.point width height time col row) feed).pixel

/-- The image that a program computes, if a frame can have the size and there is room for
its bytes. -/
def image (program : Program) (width height : Nat) (time : Float32) (feed : Feed) :
    Except Exhausted (Except Frame.SizeError Frame) :=
  match Frame.sizeError? width height with
  | some e => .ok (.error e)
  | none =>
    match Memory.reserve (width * height) Frame.pixelBytes with
    | .error e => .error e
    | .ok _ => .ok (.ok (program.raster width height time feed))

end Program

end GrammarArt
