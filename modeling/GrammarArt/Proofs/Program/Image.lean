import GrammarArt.Proofs.Frame.Sample
import GrammarArt.Proofs.Program.Lowering
import GrammarArt.Raster

/-! # The image of a program

A program computes an image if the frame can have the size and there is room for its bytes
(`image_of_lt`), and no other image than its raster (`image_eq_ok`).  The raster of a lowered
tree has every pixel of the tree (`raster_lower`), so it shows the tree without leaving a
pixel out (`raster_lower_shows`).
-/
namespace GrammarArt

namespace Program

variable {width height : Nat} {time : Float32} {feed : Feed}

theorem image_of_lt (program : Program) (time : Float32) (feed : Feed)
    (hsize : Frame.sizeError? width height = none)
    (hroom : width * height * Frame.pixelBytes < Memory.limit) :
    program.image width height time feed = .ok (.ok (program.raster width height time feed)) := by
  rw [image, hsize]
  simp only [Memory.reserve_eq_ok_iff.mpr hroom]

theorem image_eq_ok {program : Program} {image : Frame}
    (h : program.image width height time feed = .ok (.ok image)) :
    image = program.raster width height time feed := by
  unfold Program.image at h
  split at h
  · cases h
  · split at h
    · cases h
    · cases h
      rfl

end Program

namespace Tree

/-- The program of a tree computes the image with every pixel of the tree. -/
theorem raster_lower (tree : Tree) (width height : Nat) (time : Float32) (feed : Feed) :
    tree.lower.raster width height time feed =
      Frame.ofPlaces width height fun col row =>
        (tree.eval (Frame.point width height time col row) feed).pixel := by
  simp only [Program.raster, tree.eval_lower]

theorem raster_lower_shows (tree : Tree) (width height : Nat) (time : Float32) (feed : Feed) :
    (tree.lower.raster width height time feed).Shows tree width height time feed 1 := by
  have h := Frame.ofPlaces_shows tree width height time feed 1
  simp only [Frame.ceilDiv_one, Nat.mul_one] at h
  rw [raster_lower]
  exact h

end Tree

end GrammarArt
