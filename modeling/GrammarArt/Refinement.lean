import GrammarArt.Frame

/-! # Rendering from coarse to fine

A tree is rendered in steps.  Step `k` of `n` takes every `2 ^ (n - k)`-th pixel of every
`2 ^ (n - k)`-th row, so the first step is coarse and the last one is the whole image; the
number of steps is such that the short side of the first image has at most two pixels.

Every pixel is computed once: the pixels of a step are among those of the next one, and a
`Memo` keeps what was computed.  The memo does not know for which tree and feed that was;
whoever changes them has to forget it (`invalidate`, `rewind`).
-/
namespace GrammarArt

/-! ### The memo -/

/-- The pixels computed so far, by their place in the list of all pixels, and their number. -/
structure Memo where
  slots : Array (Option Pixel)
  filled : Nat
  deriving DecidableEq, Repr

namespace Memo

/-- The bytes of a slot: those of a pixel, and one that tells whether it is known. -/
def slotBytes : Nat := Frame.pixelBytes + 1

/-- The memo of nothing, with room for `size` pixels. -/
def empty (size : Nat) : Memo := ⟨Array.replicate size none, 0⟩

/-- The pixel that was computed for a place. -/
def get? (memo : Memo) (slot : Nat) : Option Pixel := (memo.slots[slot]?).join

/-- The pixel of a place, computed unless it is known already. -/
def fetch (memo : Memo) (slot : Nat) (paint : Unit → Pixel) : Pixel × Memo :=
  match memo.get? slot with
  | some pixel => (pixel, memo)
  | none =>
    let pixel := paint ()
    (pixel, ⟨memo.slots.setIfInBounds slot (some pixel), memo.filled + 1⟩)

end Memo

/-! ### Steps -/

/-- The number of steps for a frame: the least `n ≥ 1` with `2 ^ n` not below the short side. -/
def stepCount (width height : Nat) : Nat :=
  let side := min width height
  max 1 (if side ≤ 1 then 0 else (side - 1).log2 + 1)

/-- A rendering under way. -/
structure Refinement where
  width : Nat
  height : Nat
  time : Float32
  /-- The number of finished steps. -/
  done : Nat
  memo : Memo
  deriving DecidableEq, Repr

/-- A finished step: its number, counted from one, the distance of its pixels, its image. -/
structure RefinementStep where
  current : Nat
  total : Nat
  stride : Nat
  frame : Frame
  deriving DecidableEq, Repr

namespace Refinement

/-- A rendering that has not begun, if a frame can have the size and there is room for the
memo. -/
def start (width height : Nat) (time : Float32) :
    Except Exhausted (Except Frame.SizeError Refinement) :=
  match Frame.sizeError? width height with
  | some e => .ok (.error e)
  | none =>
    match Memory.reserve (width * height) Memo.slotBytes with
    | .error e => .error e
    | .ok _ => .ok (.ok ⟨width, height, time, 0, .empty (width * height)⟩)

/-- The number of all steps. -/
def total (r : Refinement) : Nat := stepCount r.width r.height

/-- Whether all steps are finished. -/
def isDone (r : Refinement) : Bool := r.total ≤ r.done

/-- The number of pixels computed since the memo was last forgotten. -/
def evaluations (r : Refinement) : Nat := r.memo.filled

/-- The rendering with nothing in its memo, at the same step. -/
def invalidate (r : Refinement) : Refinement := { r with memo := .empty (r.width * r.height) }

/-- The rendering before its first step. -/
def rewind (r : Refinement) : Refinement := { r.invalidate with done := 0 }

/-- The number of pixels on a line of `n` when only every `stride`-th is taken. -/
def sampleCount (n stride : Nat) : Nat := (n + stride - 1) / stride

/-- The places of the pixels of a step, row by row. -/
def samples (width height stride : Nat) : List (Nat × Nat) :=
  (Frame.places (sampleCount width stride) (sampleCount height stride)).map
    fun (col, row) => (col * stride, row * stride)

/-- The pixels at some places of a frame of a given width, and the memo after them. -/
def fetchAll (width : Nat) (paint : Nat → Nat → Pixel) (places : List (Nat × Nat))
    (memo : Memo) : Array Pixel × Memo :=
  places.foldl
    (fun (pixels, memo) (col, row) =>
      let (pixel, memo) := memo.fetch (row * width + col) fun _ => paint col row
      (pixels.push pixel, memo))
    (#[], memo)

/-- The pixel of a tree at a place of the frame. -/
def paint (r : Refinement) (tree : Tree) (feed : Feed) (col row : Nat) : Pixel :=
  (tree.eval (Frame.point r.width r.height r.time col row) feed).pixel

/-- The next step, if there is one, and the rendering after it. -/
def step (r : Refinement) (tree : Tree) (feed : Feed) : Option RefinementStep × Refinement :=
  if r.isDone then (none, r)
  else
    let current := r.done + 1
    let stride := Nat.pow 2 (r.total - current)
    let (pixels, memo) :=
      fetchAll r.width (r.paint tree feed) (samples r.width r.height stride) r.memo
    let frame := ⟨sampleCount r.width stride, sampleCount r.height stride, pixels⟩
    (some ⟨current, r.total, stride, frame⟩, { r with done := current, memo := memo })

end Refinement

end GrammarArt
