import GrammarArt.Frame
import Mathlib.Algebra.Order.Floor.Div

/-! # Images that sample a frame

The images of a session are made of the pixels of one frame: every pixel of it, or every
`stride`-th pixel of every `stride`-th row.  `Frame.Shows` says, pixel by pixel, what such
an image is, without a word on how it was computed: its size is that of the frame divided by
the stride and rounded up, and the pixel in column `i` and row `j` is the color of the tree
at column `i * stride` and row `j * stride` of the frame.
-/
namespace GrammarArt

namespace Frame

/-! ### The places of a frame -/

theorem places_succ (width height : Nat) :
    places width (height + 1) =
      places width height ++ (List.range width).map fun col => (col, height) := by
  rw [places, List.range_succ, List.flatMap_append, List.flatMap_singleton]
  rfl

@[simp] theorem length_places (width height : Nat) :
    (places width height).length = height * width := by
  induction height with
  | zero => simp [places]
  | succ height ih =>
    rw [places_succ, List.length_append, ih, List.length_map, List.length_range, Nat.succ_mul]

theorem mem_places {width height : Nat} {place : Nat × Nat} :
    place ∈ places width height ↔ place.1 < width ∧ place.2 < height := by
  obtain ⟨col, row⟩ := place
  simp only [places, List.mem_flatMap, List.mem_range, List.mem_map, Prod.mk.injEq]
  constructor
  · rintro ⟨j, hj, i, hi, rfl, rfl⟩
    exact ⟨hi, hj⟩
  · rintro ⟨hcol, hrow⟩
    exact ⟨row, hrow, col, hcol, rfl, rfl⟩

theorem lt_mul_of_lt_of_lt {width height col row : Nat} (hcol : col < width)
    (hrow : row < height) : row * width + col < height * width := by
  have h : (row + 1) * width ≤ height * width := Nat.mul_le_mul_right width hrow
  rw [Nat.succ_mul] at h
  omega

/-- The places stand row by row. -/
theorem getElem?_places {width height col row : Nat} (hcol : col < width)
    (hrow : row < height) : (places width height)[row * width + col]? = some (col, row) := by
  induction height with
  | zero => omega
  | succ height ih =>
    rw [places_succ]
    by_cases h : row < height
    · rw [List.getElem?_append_left (by simpa using lt_mul_of_lt_of_lt hcol h)]
      exact ih h
    · have hlast : row = height := by omega
      rw [hlast, List.getElem?_append_right (by simp), length_places, Nat.add_sub_cancel_left]
      simp [hcol]

theorem pixel?_ofPlaces {width height : Nat} (paint : Nat → Nat → Pixel) {col row : Nat}
    (hcol : col < width) (hrow : row < height) :
    (ofPlaces width height paint).pixel? col row = some (paint col row) := by
  show ((places width height).map _).toArray[row * width + col]? = _
  rw [List.getElem?_toArray, List.getElem?_map, getElem?_places hcol hrow]
  rfl

/-! ### What an image shows -/

theorem ceilDiv_one (n : Nat) : n ⌈/⌉ 1 = n := by
  rw [Nat.ceilDiv_eq_add_pred_div, Nat.add_sub_cancel, Nat.div_one]

/-- The image shows the tree at every `stride`-th pixel of every `stride`-th row of a frame,
at a time and under a feed. -/
structure Shows (image : Frame) (tree : Tree) (width height : Nat) (time : Float32)
    (feed : Feed) (stride : Nat) : Prop where
  width_eq : image.width = width ⌈/⌉ stride
  height_eq : image.height = height ⌈/⌉ stride
  size_eq : image.pixels.size = image.width * image.height
  pixel?_eq : ∀ i < image.width, ∀ j < image.height, image.pixel? i j =
    some (tree.eval (point width height time (i * stride) (j * stride)) feed).pixel

/-- The image that is painted at the sampled places shows the tree there. -/
theorem ofPlaces_shows (tree : Tree) (width height : Nat) (time : Float32) (feed : Feed)
    (stride : Nat) :
    (ofPlaces (width ⌈/⌉ stride) (height ⌈/⌉ stride) fun i j =>
      (tree.eval (point width height time (i * stride) (j * stride)) feed).pixel).Shows
        tree width height time feed stride where
  width_eq := rfl
  height_eq := rfl
  size_eq := by simp [ofPlaces, Nat.mul_comm]
  pixel?_eq := fun _ hi _ hj => pixel?_ofPlaces _ hi hj

/-- The image that shows a tree at every `stride`-th pixel of every `stride`-th row of a frame. -/
def showing (tree : Tree) (width height : Nat) (time : Float32) (feed : Feed) (stride : Nat) :
    Frame :=
  ofPlaces (width ⌈/⌉ stride) (height ⌈/⌉ stride) fun i j =>
    (tree.eval (point width height time (i * stride) (j * stride)) feed).pixel

/-- With a stride of one, it has all pixels of the frame. -/
theorem showing_one (tree : Tree) (width height : Nat) (time : Float32) (feed : Feed) :
    showing tree width height time feed 1 = ofPlaces width height fun col row =>
      (tree.eval (point width height time col row) feed).pixel := by
  simp only [showing, ceilDiv_one, Nat.mul_one]

/-- Images of one size that have the same pixels are the same. -/
theorem eq_of_pixel?_eq {image image' : Frame} (hwidth : image.width = image'.width)
    (hheight : image.height = image'.height)
    (hsize : image.pixels.size = image.width * image.height)
    (hsize' : image'.pixels.size = image'.width * image'.height)
    (h : ∀ i < image.width, ∀ j < image.height, image.pixel? i j = image'.pixel? i j) :
    image = image' := by
  have hpixels : image.pixels = image'.pixels := by
    refine Array.ext_getElem? fun k => ?_
    by_cases hk : k < image.pixels.size
    · rw [hsize, Nat.mul_comm] at hk
      have hpos : 0 < image.width := Nat.pos_of_mul_pos_left (Nat.zero_lt_of_lt hk)
      have hpixel := h (k % image.width) (Nat.mod_lt k hpos) (k / image.width)
        ((Nat.div_lt_iff_lt_mul hpos).mpr hk)
      unfold pixel? at hpixel
      rwa [← hwidth, Nat.div_add_mod'] at hpixel
    · rw [Array.getElem?_eq_none (Nat.not_lt.mp hk), Array.getElem?_eq_none]
      rw [hsize', ← hwidth, ← hheight, ← hsize]
      exact Nat.not_lt.mp hk
  cases image
  cases image'
  simp only [Frame.mk.injEq]
  exact ⟨hwidth, hheight, hpixels⟩

/-- An image is known by what it shows. -/
theorem Shows.eq_showing {image : Frame} {tree : Tree} {width height : Nat} {time : Float32}
    {feed : Feed} {stride : Nat} (h : image.Shows tree width height time feed stride) :
    image = showing tree width height time feed stride := by
  have hshowing := ofPlaces_shows tree width height time feed stride
  refine eq_of_pixel?_eq h.width_eq h.height_eq h.size_eq hshowing.size_eq fun i hi j hj => ?_
  exact (h.pixel?_eq i hi j hj).trans
    (hshowing.pixel?_eq i (h.width_eq ▸ hi) j (h.height_eq ▸ hj)).symm

end Frame

end GrammarArt
