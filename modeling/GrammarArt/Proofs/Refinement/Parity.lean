import GrammarArt.Proofs.Program.Image
import GrammarArt.Proofs.Refinement.Step

/-! # The last step and the single pass

A rendering that is stepped to the end under one feed makes the images of all strides from
coarse to fine, each of them the tree painted afresh (`remaining_eq`).  The last stride is
one, so the last image has every pixel of the frame, and is the one that the program of the
tree computes in a single pass (`getLast?_remaining_eq_image`).

Both ways need room, and the rendering needs more of it than the pass: its memo has a slot
of five bytes for every pixel.  A frame that is too large for that has no last step
(`exists_size_without_start`).
-/
namespace GrammarArt

namespace Refinement

variable {r r' : Refinement} {tree : Tree} {feed : Feed}

/-- A step that is made leaves one step less. -/
theorem sub_done_lt_of_step {s : RefinementStep} (h : r.step tree feed = (some s, r')) :
    r'.total - r'.done < r.total - r.done := by
  rcases Nat.lt_or_ge r.done r.total with hlt | hle
  · have hdone : ¬ r.isDone = true := by simpa [isDone] using hlt
    rw [step, if_neg hdone] at h
    cases h
    show r.total - (r.done + 1) < r.total - r.done
    omega
  · rw [step_eq_of_le hle] at h
    cases h

/-- All steps that a rendering has left, each of them for the same tree and feed. -/
def remaining (r : Refinement) (tree : Tree) (feed : Feed) : List RefinementStep :=
  match _h : r.step tree feed with
  | (none, _) => []
  | (some step, next) => step :: remaining next tree feed
termination_by r.total - r.done
decreasing_by exact sub_done_lt_of_step _h

/-- What step `k` makes: the tree at the distance of that step. -/
def stepAt (r : Refinement) (tree : Tree) (feed : Feed) (k : Nat) : RefinementStep :=
  ⟨k, r.total, 2 ^ (r.total - k), r.sampled tree feed (2 ^ (r.total - k))⟩

/-- **All steps show the tree afresh**: those that are left are the ones with the numbers
from the first unfinished one to the last. -/
theorem remaining_eq (hmemo : r.memo.RightFor r.width (r.paint tree feed)) :
    r.remaining tree feed =
      (List.range' (r.done + 1) (r.total - r.done)).map (r.stepAt tree feed) := by
  induction hn : r.total - r.done generalizing r with
  | zero =>
    rw [remaining, step_eq_of_le (by omega)]
    rfl
  | succ n ih =>
    obtain ⟨memo, hstep, hright⟩ := step_eq_of_lt (by omega : r.done < r.total) hmemo
    rw [remaining, hstep]
    -- The steps that follow are those of a rendering with the same images.
    have hrest := ih (r := { r with done := r.done + 1, memo := memo }) hright
      (show r.total - (r.done + 1) = n by omega)
    rw [List.range'_succ, List.map_cons]
    exact congrArg (r.stepAt tree feed (r.done + 1) :: ·) hrest

theorem total_pos (r : Refinement) : 0 < r.total := Nat.le_max_left 1 _

/-- The last step of a rendering that has not begun has every pixel of the frame. -/
theorem getLast?_remaining (hdone : r.done = 0)
    (hmemo : r.memo.RightFor r.width (r.paint tree feed)) :
    (r.remaining tree feed).getLast?.map RefinementStep.frame =
      some (Frame.ofPlaces r.width r.height (r.paint tree feed)) := by
  have htotal := r.total_pos
  rw [remaining_eq hmemo, List.getLast?_map, List.getLast?_range', hdone, Nat.sub_zero,
    if_neg (by omega)]
  have hlast : 0 + 1 + r.total - 1 = r.total := by omega
  rw [← sampled_one]
  simp [hlast, stepAt]

/-! ### Sizes -/

theorem start_of_lt {width height : Nat} (time : Float32)
    (hsize : Frame.sizeError? width height = none)
    (hroom : width * height * Memo.slotBytes < Memory.limit) :
    start width height time = .ok (.ok ⟨width, height, time, 0, .empty (width * height)⟩) := by
  rw [start, hsize]
  simp only [Memory.reserve_eq_ok_iff.mpr hroom]

theorem start_of_le {width height : Nat} (time : Float32)
    (hsize : Frame.sizeError? width height = none)
    (hroom : Memory.limit ≤ width * height * Memo.slotBytes) :
    start width height time = .error ⟨width * height * Memo.slotBytes⟩ := by
  rw [start, hsize]
  simp only [Memory.reserve, if_pos hroom]

/-- **The last step is the image of the single pass.**  For a size that a frame can have, a
rendering and a pass of the program both come to an end, and the last image of the one is
the image of the other, unless there is no room for the memo; then no rendering begins. -/
theorem getLast?_remaining_eq_image (tree : Tree) {width height : Nat} (time : Float32)
    (feed : Feed) (hsize : Frame.sizeError? width height = none) :
    (width * height * Memo.slotBytes < Memory.limit →
      ∃ r image, start width height time = .ok (.ok r) ∧
        tree.lower.image width height time feed = .ok (.ok image) ∧
        (r.remaining tree feed).getLast?.map RefinementStep.frame = some image) ∧
    (Memory.limit ≤ width * height * Memo.slotBytes →
      start width height time = .error ⟨width * height * Memo.slotBytes⟩) := by
  refine ⟨fun hroom => ?_, fun hroom => start_of_le time hsize hroom⟩
  have hpixels : width * height * Frame.pixelBytes < Memory.limit :=
    Nat.lt_of_le_of_lt (Nat.mul_le_mul_left _ (Nat.le_succ _)) hroom
  refine ⟨_, _, start_of_lt time hsize hroom, tree.lower.image_of_lt time feed hsize hpixels, ?_⟩
  rw [tree.raster_lower]
  exact getLast?_remaining rfl (Memo.rightFor_empty _ _ _)

/-- A frame of three columns and five rows takes three steps. -/
theorem getLast?_remaining_eq_image_three_five :
    Frame.sizeError? 3 5 = none ∧ 3 * 5 * Memo.slotBytes < Memory.limit ∧
      ∃ r image, start 3 5 0 = .ok (.ok r) ∧
        (Tree.terminal 0 .x).lower.image 3 5 0 .none = .ok (.ok image) ∧
        (r.remaining (.terminal 0 .x) .none).getLast?.map RefinementStep.frame = some image :=
  have hroom : 3 * 5 * Memo.slotBytes < Memory.limit := by decide
  ⟨rfl, hroom, (getLast?_remaining_eq_image (.terminal 0 .x) 0 .none rfl).1 hroom⟩

/-- Not every size that a frame can have leaves room for a rendering. -/
theorem exists_size_without_start :
    ¬ ∀ (tree : Tree) (width height : Nat) (time : Float32) (feed : Feed),
      Frame.sizeError? width height = none →
        ∃ r image, start width height time = .ok (.ok r) ∧
          tree.lower.image width height time feed = .ok (.ok image) ∧
          (r.remaining tree feed).getLast?.map RefinementStep.frame = some image := by
  intro h
  have hsize : Frame.sizeError? 4294967295 1073741824 = none := by decide
  obtain ⟨r, image, hstart, -⟩ := h (.terminal 0 .x) 4294967295 1073741824 0 .none hsize
  rw [start_of_le 0 hsize (by decide)] at hstart
  cases hstart

end Refinement

end GrammarArt
