import GrammarArt.Proofs.Refinement.Memo

/-! # The image of a step

A step of a rendering whose memo is right shows the tree at every pixel that it takes, and
leaves a right memo (`step_eq_of_lt`); nothing else of the rendering matters for it, in
particular not how the memo was filled.
-/
namespace GrammarArt

namespace Refinement

/-- The tree at every `stride`-th pixel of every `stride`-th row, painted afresh. -/
def sampled (r : Refinement) (tree : Tree) (feed : Feed) (stride : Nat) : Frame :=
  Frame.ofPlaces (r.width ⌈/⌉ stride) (r.height ⌈/⌉ stride) fun i j =>
    r.paint tree feed (i * stride) (j * stride)

theorem sampled_shows (r : Refinement) (tree : Tree) (feed : Feed) (stride : Nat) :
    (r.sampled tree feed stride).Shows tree r.width r.height r.time feed stride :=
  Frame.ofPlaces_shows tree r.width r.height r.time feed stride

theorem sampled_one (r : Refinement) (tree : Tree) (feed : Feed) :
    r.sampled tree feed 1 = Frame.ofPlaces r.width r.height (r.paint tree feed) := by
  simp only [sampled, Frame.ceilDiv_one, Nat.mul_one]

theorem mul_lt_of_lt_ceilDiv {n stride i : Nat} (hs : 0 < stride) (hi : i < n ⌈/⌉ stride) :
    i * stride < n := by
  rw [Nat.mul_comm]
  exact lt_of_not_ge fun h => absurd ((ceilDiv_le_iff_le_mul hs).mpr h) (Nat.not_le.mpr hi)

theorem lt_width_of_mem_samples {width height stride : Nat} (hs : 0 < stride)
    {place : Nat × Nat} (h : place ∈ samples width height stride) : place.1 < width := by
  obtain ⟨⟨i, j⟩, hmem, rfl⟩ := List.mem_map.mp h
  exact mul_lt_of_lt_ceilDiv hs (Frame.mem_places.mp hmem).1

/-- What a step fetches is the sampled image and a memo that is right for the next step. -/
theorem fetchAll_samples {r : Refinement} {tree : Tree} {feed : Feed}
    (hmemo : r.memo.RightFor r.width (r.paint tree feed)) {stride : Nat} (hs : 0 < stride) :
    ∃ memo, fetchAll r.width (r.paint tree feed) (samples r.width r.height stride) r.memo =
        ((r.sampled tree feed stride).pixels, memo) ∧
      memo.RightFor r.width (r.paint tree feed) := by
  have hcols : ∀ place ∈ samples r.width r.height stride, place.1 < r.width :=
    fun place => lt_width_of_mem_samples hs
  obtain ⟨hpixels, hright⟩ := fetchAll_eq hcols hmemo
  refine ⟨_, Prod.ext ?_ rfl, hright⟩
  rw [hpixels, samples, List.map_map]
  rfl

/-- **A step that is left shows the tree afresh**, and the rendering after it has one more
step behind it and a right memo. -/
theorem step_eq_of_lt {r : Refinement} {tree : Tree} {feed : Feed} (hr : r.done < r.total)
    (hmemo : r.memo.RightFor r.width (r.paint tree feed)) :
    ∃ memo, r.step tree feed =
        (some ⟨r.done + 1, r.total, 2 ^ (r.total - (r.done + 1)),
            r.sampled tree feed (2 ^ (r.total - (r.done + 1)))⟩,
          { r with done := r.done + 1, memo := memo }) ∧
      memo.RightFor r.width (r.paint tree feed) := by
  obtain ⟨memo, hfetch, hright⟩ :=
    fetchAll_samples hmemo (Nat.two_pow_pos (r.total - (r.done + 1)))
  refine ⟨memo, ?_, hright⟩
  have hdone : ¬ r.isDone = true := by simpa [isDone] using hr
  rw [step, if_neg hdone]
  simp only [Nat.pow_eq, hfetch]
  rfl

theorem step_eq_of_le {r : Refinement} (hr : r.total ≤ r.done) (tree : Tree) (feed : Feed) :
    r.step tree feed = (none, r) := by
  rw [step, if_pos (by simpa [isDone] using hr)]

/-! ### Renderings that begin -/

theorem rightFor_rewind (r : Refinement) (paint : Nat → Nat → Pixel) :
    r.rewind.memo.RightFor r.width paint :=
  Memo.rightFor_empty _ _ _

theorem start_eq_ok {width height : Nat} {time : Float32} {r : Refinement}
    (h : start width height time = .ok (.ok r)) :
    r = ⟨width, height, time, 0, .empty (width * height)⟩ := by
  unfold start at h
  split at h
  · cases h
  · split at h
    · cases h
    · cases h
      rfl

end Refinement

end GrammarArt
