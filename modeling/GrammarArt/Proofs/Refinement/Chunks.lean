import GrammarArt.Proofs.Refinement.Schedule
import Mathlib.GroupTheory.GroupAction.Ring

/-! # A step made chunk by chunk

The slots of a memo can be cut into chunks of as many rows of pixels as a step goes on by from one
row of its image to the next.  Then each row of the image has a chunk of its own, and is made from
the slots of this chunk alone, whatever stands around it; so rows can be made apart from each
other.  Here this is written down with every product, every index and every shift checked
(`stepByChunks?`): what does not fit a word or is not there has no result.

For a rendering that was begun, nothing of this fails, and the outcome is that of the step
(`stepByChunks?_eq`).  The induction is on the rows of the frame that are left, and what it needs
of those behind it is only their number: all chunks but the last are full, so the next chunk
begins with the next row of the image (`mapM_sweepChunk?`).
-/
namespace GrammarArt

namespace Refinement

/-! ### Chunks -/

/-- A list in pieces of a size, of which the last one can be shorter. -/
def chunks {α : Type} (size : Nat) (l : List α) : List (List α) :=
  if 0 < size ∧ l ≠ [] then l.take size :: chunks size (l.drop size) else []
termination_by l.length
decreasing_by
  have hne := List.length_pos_of_ne_nil (by assumption : 0 < size ∧ l ≠ []).2
  rw [List.length_drop]
  omega

section
variable {α : Type} {size : Nat} {l : List α}

theorem chunks_nil (size : Nat) : chunks size ([] : List α) = [] := by
  rw [chunks, if_neg (fun h => h.2 rfl)]

theorem chunks_eq_cons (hsize : 0 < size) (hl : l ≠ []) :
    chunks size l = l.take size :: chunks size (l.drop size) := by
  rw [chunks, if_pos ⟨hsize, hl⟩]

theorem ceilDiv_eq_succ {n s : Nat} (hs : 0 < s) (hn : 0 < n) :
    n ⌈/⌉ s = (n - s) ⌈/⌉ s + 1 := by
  have hsum : n + s - 1 = n - 1 + s := by omega
  rw [Nat.ceilDiv_eq_add_pred_div, Nat.ceilDiv_eq_add_pred_div, hsum, Nat.add_div_right _ hs]
  rcases Nat.lt_or_ge n s with hlt | hle
  · rw [Nat.div_eq_of_lt (by omega), Nat.div_eq_of_lt (by omega)]
  · rw [show n - s + s - 1 = n - 1 by omega]

theorem ceilDiv_le_self (n : Nat) {s : Nat} (hs : 0 < s) : n ⌈/⌉ s ≤ n :=
  (ceilDiv_le_iff_le_mul hs).mpr (Nat.le_mul_of_pos_left n hs)

theorem mul_ceilDiv_mul {c n s : Nat} (hc : 0 < c) (hs : 0 < s) :
    c * n ⌈/⌉ (c * s) = n ⌈/⌉ s := by
  refine eq_of_forall_ge_iff fun k => ?_
  rw [ceilDiv_le_iff_le_mul (Nat.mul_pos hc hs), ceilDiv_le_iff_le_mul hs, Nat.mul_assoc,
    Nat.mul_le_mul_left_iff hc]

theorem length_chunks (hsize : 0 < size) (l : List α) :
    (chunks size l).length = l.length ⌈/⌉ size := by
  fun_induction chunks size l with
  | case1 l h ih =>
    rw [List.length_cons, ih, List.length_drop,
      ceilDiv_eq_succ hsize (List.length_pos_of_ne_nil h.2)]
  | case2 l h =>
    obtain rfl : l = [] := Decidable.not_not.mp fun hne => h ⟨hsize, hne⟩
    rw [List.length_nil, List.length_nil, zero_ceilDiv]

theorem getElem?_chunks (hsize : 0 < size) {j : Nat} (hj : j * size < l.length) :
    (chunks size l)[j]? = some ((l.drop (j * size)).take size) := by
  have hne : l ≠ [] := List.ne_nil_of_length_pos (Nat.zero_lt_of_lt hj)
  rw [chunks_eq_cons hsize hne]
  induction j generalizing l with
  | zero => simp
  | succ j ih =>
    have hrest : j * size < (l.drop size).length := by
      rw [List.length_drop]
      rw [Nat.succ_mul] at hj
      omega
    have hne' : l.drop size ≠ [] := List.ne_nil_of_length_pos (Nat.zero_lt_of_lt hrest)
    rw [List.getElem?_cons_succ, chunks_eq_cons hsize hne', ih hrest hne', List.drop_drop,
      Nat.succ_mul, Nat.add_comm size]

end

/-! ### Rows -/

/-- A number, if it is one of so many bits. -/
def fits? (bits n : Nat) : Option Nat := if n < 2 ^ bits then some n else none

/-- A row under way: the slots of its chunk, the pixels up to here, and how many of them were
computed. -/
structure Row where
  slots : List (Option Pixel)
  pixels : List Pixel
  computed : Nat

/-- The row with its next pixel. -/
def Row.visit? (paint : Nat → Nat → Pixel) (stride y : Nat) (row : Row) (i : Nat) : Option Row := do
  let x ← fits? 32 (i * stride)
  match ← row.slots[x]? with
  | some pixel => some { row with pixels := row.pixels ++ [pixel] }
  | none =>
    let pixel := paint x y
    some ⟨row.slots.set x (some pixel), row.pixels ++ [pixel], row.computed + 1⟩

/-- The row of a chunk. -/
def sweepChunk? (paint : Nat → Nat → Pixel) (stride columns : Nat)
    (chunk : List (Option Pixel) × Nat) : Option Row := do
  let y ← fits? 32 (chunk.2 * stride)
  (List.range columns).foldlM (Row.visit? paint stride y) ⟨chunk.1, [], 0⟩

/-- The next step, and the rendering after it, made chunk by chunk. -/
def stepByChunks? (r : Refinement) (tree : Tree) (feed : Feed) :
    Option (RefinementStep × Refinement) := do
  let current ← fits? 32 (r.done + 1)
  let shift ← if current ≤ r.total then fits? 5 (r.total - current) else none
  let stride ← fits? 32 (2 ^ shift)
  let columns := r.width ⌈/⌉ stride
  let lines := r.height ⌈/⌉ stride
  let size ← fits? 64 (r.width * stride)
  let rows ← (chunks size r.memo.slots.toList).zipIdx.mapM
    (sweepChunk? (r.paint tree feed) stride columns)
  let _ ← fits? 64 (columns * lines * Frame.pixelBytes)
  let filled ← fits? 64 (r.memo.filled + (rows.map Row.computed).sum)
  let frame := ⟨columns, lines, (rows.flatMap Row.pixels).toArray⟩
  let memo := ⟨(rows.flatMap Row.slots).toArray, filled⟩
  some (⟨current, r.total, stride, frame⟩, { r with done := current, memo := memo })

section
variable {width stride y : Nat} (paint : Nat → Nat → Pixel)

theorem fits?_of_lt {bits n : Nat} (h : n < 2 ^ bits) : fits? bits n = some n := if_pos h

/-- What has been fetched when a row is under way: behind what was before it, and with the slots
before and behind its chunk. -/
def Row.within (before after : List (Option Pixel)) (pixels : Array Pixel) (filled : Nat)
    (row : Row) : Array Pixel × Memo :=
  (pixels ++ row.pixels.toArray, ⟨(before ++ (row.slots ++ after)).toArray, filled + row.computed⟩)

/-- In a chunk that begins with the row, the place of a pixel is its column. -/
theorem Row.visit?_eq {row : Row} {i : Nat} (hi : i * stride < row.slots.length)
    (hword : i * stride < 2 ^ 32) :
    ∃ next, row.visit? paint stride y i = some next ∧ next.slots.length = row.slots.length ∧
      ∀ before after pixels filled, before.length = y * width →
        fetchNext width paint (row.within before after pixels filled) (i * stride, y) =
          next.within before after pixels filled := by
  have hslot {before after : List (Option Pixel)} (hbefore : before.length = y * width) :
      ((before ++ (row.slots ++ after)).toArray[y * width + i * stride]?).join =
        row.slots[i * stride] := by
    rw [List.getElem?_toArray, ← hbefore, List.getElem?_append_right (Nat.le_add_right _ _),
      Nat.add_sub_cancel_left, List.getElem?_append_left hi, List.getElem?_eq_getElem hi]
    rfl
  have hset {before after : List (Option Pixel)} (hbefore : before.length = y * width)
      (pixel : Pixel) :
      (before ++ (row.slots ++ after)).toArray.setIfInBounds (y * width + i * stride) (some pixel) =
        (before ++ (row.slots.set (i * stride) (some pixel) ++ after)).toArray := by
    rw [List.setIfInBounds_toArray, ← hbefore, List.set_append_right _ _ (Nat.le_add_right _ _),
      Nat.add_sub_cancel_left, List.set_append_left _ _ hi]
  rw [Row.visit?, fits?_of_lt hword]
  simp only [Option.bind_eq_bind, Option.bind_some, List.getElem?_eq_getElem hi]
  unfold fetchNext Memo.fetch Memo.get? Row.within
  cases hknown : row.slots[i * stride] with
  | some pixel =>
    refine ⟨_, rfl, rfl, fun before after pixels filled hbefore => ?_⟩
    simp only [hslot hbefore, hknown]
    simp
  | none =>
    refine ⟨_, rfl, List.length_set .., fun before after pixels filled hbefore => ?_⟩
    simp only [hslot hbefore, hknown, hset hbefore]
    simp [Nat.add_assoc]

/-- A row is made from the slots of its chunk, whatever stands around it. -/
theorem Row.foldlM_visit? {row : Row} {is : List Nat}
    (his : ∀ i ∈ is, i * stride < row.slots.length ∧ i * stride < 2 ^ 32) :
    ∃ last, is.foldlM (Row.visit? paint stride y) row = some last ∧
      last.slots.length = row.slots.length ∧
      ∀ before after pixels filled, before.length = y * width →
        (is.map fun i => (i * stride, y)).foldl (fetchNext width paint)
          (row.within before after pixels filled) = last.within before after pixels filled := by
  induction is generalizing row with
  | nil => exact ⟨row, rfl, rfl, fun _ _ _ _ _ => rfl⟩
  | cons i is ih =>
    obtain ⟨⟨hi, hword⟩, hrest⟩ := List.forall_mem_cons.mp his
    obtain ⟨next, hvisit, hlength, hfetch⟩ := Row.visit?_eq (y := y) paint hi hword
    rw [← hlength] at hrest
    obtain ⟨last, hlast, hlength', hfold⟩ := ih hrest
    refine ⟨last, ?_, hlength'.trans hlength, fun before after pixels filled hbefore => ?_⟩
    · rw [List.foldlM_cons, hvisit]
      exact hlast
    · rw [List.map_cons, List.foldl_cons, hfetch before after pixels filled hbefore,
        hfold before after pixels filled hbefore]

/-- The places of a step on some rows of its image. -/
def rowPlaces (width stride : Nat) (rows : List Nat) : List (Nat × Nat) :=
  rows.flatMap fun j => (List.range (width ⌈/⌉ stride)).map fun i => (i * stride, j * stride)

/-- The row that a chunk begins with is made from this chunk. -/
theorem sweepChunk?_eq (hs : 0 < stride) (hword : width < 2 ^ 32) {j : Nat}
    (hj : j * stride < 2 ^ 32) {chunk : List (Option Pixel)} (hchunk : width ≤ chunk.length) :
    ∃ row, sweepChunk? paint stride (width ⌈/⌉ stride) (chunk, j) = some row ∧
      row.slots.length = chunk.length ∧
      ∀ before after pixels filled, before.length = j * stride * width →
        (rowPlaces width stride [j]).foldl (fetchNext width paint)
            (pixels, ⟨(before ++ (chunk ++ after)).toArray, filled⟩) =
          row.within before after pixels filled := by
  have hcols : ∀ i ∈ List.range (width ⌈/⌉ stride),
      i * stride < chunk.length ∧ i * stride < 2 ^ 32 := by
    intro i hi
    have hlt := mul_lt_of_lt_ceilDiv hs (List.mem_range.mp hi)
    exact ⟨hlt.trans_le hchunk, hlt.trans hword⟩
  let begun : Row := ⟨chunk, [], 0⟩
  obtain ⟨row, hrow, hlength, hfold⟩ :
      ∃ row, (List.range (width ⌈/⌉ stride)).foldlM (Row.visit? paint stride (j * stride)) begun =
        some row ∧ row.slots.length = chunk.length ∧ _ := Row.foldlM_visit? paint hcols
  refine ⟨row, ?_, hlength, fun before after pixels filled hbefore => ?_⟩
  · rw [sweepChunk?, fits?_of_lt hj]
    exact hrow
  · have hbegun : begun.within before after pixels filled =
        (pixels, ⟨(before ++ (chunk ++ after)).toArray, filled⟩) := by
      simp [begun, Row.within]
    rw [rowPlaces, List.flatMap_singleton, ← hbegun, hfold before after pixels filled hbefore]

/-- The rows that are left are made from the chunks that are left. -/
theorem mapM_sweepChunk? (hs : 0 < stride) (hwidth : 0 < width) (hword : width < 2 ^ 32)
    {left j : Nat} {rest : List (Option Pixel)} (hrest : rest.length = width * left)
    (hlines : left ≠ 0 → j * stride + left < 2 ^ 32) :
    ∃ rows, ((chunks (width * stride) rest).zipIdx j).mapM
        (sweepChunk? paint stride (width ⌈/⌉ stride)) = some rows ∧
      ∀ before pixels filled, (left ≠ 0 → before.length = j * stride * width) →
        (rowPlaces width stride (List.range' j (left ⌈/⌉ stride))).foldl (fetchNext width paint)
            (pixels, ⟨(before ++ rest).toArray, filled⟩) =
          (pixels ++ (rows.flatMap Row.pixels).toArray,
            ⟨(before ++ rows.flatMap Row.slots).toArray,
              filled + (rows.map Row.computed).sum⟩) := by
  induction left using Nat.strong_induction_on generalizing j rest with
  | _ left ih =>
    rcases Nat.eq_zero_or_pos left with rfl | hleft
    · obtain rfl : rest = [] := List.length_eq_zero_iff.mp hrest
      refine ⟨[], ?_, fun before pixels filled _ => ?_⟩
      · rw [chunks_nil]
        rfl
      · simp [rowPlaces]
    · have hsize : 0 < width * stride := Nat.mul_pos hwidth hs
      have hne : rest ≠ [] := List.ne_nil_of_length_pos (hrest ▸ Nat.mul_pos hwidth hleft)
      have hchunk : (rest.take (width * stride)).length = width * min stride left := by
        rw [List.length_take, hrest, Nat.mul_min_mul_left]
      have hdrop : (rest.drop (width * stride)).length = width * (left - stride) := by
        rw [List.length_drop, hrest, Nat.mul_sub]
      have hlines' : left - stride ≠ 0 → (j + 1) * stride + (left - stride) < 2 ^ 32 := by
        intro hmore
        have hend := hlines hleft.ne'
        rw [Nat.succ_mul]
        omega
      obtain ⟨row, hrow, hlength, hfetch⟩ := sweepChunk?_eq paint hs hword
        ((Nat.le_add_right _ left).trans_lt (hlines hleft.ne'))
        (hchunk ▸ Nat.le_mul_of_pos_right width (lt_min hs hleft))
      obtain ⟨rows, hrows, hfetch'⟩ := ih (left - stride) (Nat.sub_lt hleft hs) hdrop hlines'
      have hplaces : rowPlaces width stride (List.range' j (left ⌈/⌉ stride)) =
          rowPlaces width stride [j] ++
            rowPlaces width stride (List.range' (j + 1) ((left - stride) ⌈/⌉ stride)) := by
        rw [ceilDiv_eq_succ hs hleft, List.range'_succ, rowPlaces, List.flatMap_cons, rowPlaces,
          rowPlaces, List.flatMap_singleton]
      refine ⟨row :: rows, ?_, fun before pixels filled hbefore => ?_⟩
      · rw [chunks_eq_cons hsize hne, List.zipIdx_cons, List.mapM_cons, hrow, hrows]
        rfl
      · -- Only the last chunk can be short, so all others leave the next row at its place.
        have hbefore' : left - stride ≠ 0 →
            (before ++ row.slots).length = (j + 1) * stride * width := by
          intro hmore
          rw [List.length_append, hbefore hleft.ne', hlength, hchunk,
            Nat.min_eq_left (Nat.le_of_lt (Nat.lt_of_sub_ne_zero hmore)), Nat.succ_mul,
            Nat.add_mul, Nat.mul_comm width]
        have hfirst := hfetch before (rest.drop (width * stride)) pixels filled
          (hbefore hleft.ne')
        rw [List.take_append_drop] at hfirst
        rw [hplaces, List.foldl_append, hfirst, Row.within, ← List.append_assoc,
          hfetch' (before ++ row.slots) _ _ hbefore']
        simp [Nat.add_assoc]

/-- The places of a step, row by row. -/
theorem samples_eq_rowPlaces (width height stride : Nat) :
    samples width height stride =
      rowPlaces width stride (List.range' 0 (height ⌈/⌉ stride)) := by
  rw [samples, Frame.places, List.map_flatMap, ← List.range_eq_range', rowPlaces]
  simp only [List.map_map]
  rfl

end

/-! ### Pixels and chunks -/

/-- How the pixels that are taken at a distance lie in a frame and in the chunks of its memo. -/
structure SamplesFit (width height stride : Nat) : Prop where
  stride_lt : stride < 2 ^ 32
  mem_iff : ∀ place, place ∈ samples width height stride ↔
    ∃ i < width ⌈/⌉ stride, ∃ j < height ⌈/⌉ stride, place = (i * stride, j * stride)
  nodup : (samples width height stride).Nodup
  column_lt : ∀ i < width ⌈/⌉ stride, i * stride < width
  row_lt : ∀ j < height ⌈/⌉ stride, j * stride < height
  length_chunks : ∀ slots : List (Option Pixel), slots.length = width * height →
    (chunks (width * stride) slots).length = height ⌈/⌉ stride
  /-- The last chunk can be short, but not too short for its row. -/
  chunk : ∀ slots : List (Option Pixel), slots.length = width * height →
    ∀ j < height ⌈/⌉ stride, ∃ chunk, (chunks (width * stride) slots)[j]? = some chunk ∧
      chunk.length = width * min stride (height - j * stride) ∧
      ∀ i < width ⌈/⌉ stride, i * stride < chunk.length ∧
        chunk[i * stride]? = slots[j * stride * width + i * stride]?

theorem samplesFit {width height stride : Nat} (hs : 0 < stride) (hword : stride < 2 ^ 32)
    (hwidth : 0 < width) : SamplesFit width height stride where
  stride_lt := hword
  mem_iff _ := mem_samples_iff
  nodup := nodup_samples hs
  column_lt _ := mul_lt_of_lt_ceilDiv hs
  row_lt _ := mul_lt_of_lt_ceilDiv hs
  length_chunks slots hslots := by
    rw [length_chunks (Nat.mul_pos hwidth hs), hslots, mul_ceilDiv_mul hwidth hs]
  chunk slots hslots j hj := by
    have hrow : j * stride < height := mul_lt_of_lt_ceilDiv hs hj
    have hbefore : j * (width * stride) = j * stride * width := by
      rw [Nat.mul_comm width, Nat.mul_assoc]
    have hbegin : j * (width * stride) < slots.length := by
      rw [hbefore, hslots, Nat.mul_comm width]
      exact Nat.mul_lt_mul_of_pos_right hrow hwidth
    have hlength : ((slots.drop (j * (width * stride))).take (width * stride)).length =
        width * min stride (height - j * stride) := by
      rw [List.length_take, List.length_drop, hslots, hbefore, Nat.mul_comm _ width, ← Nat.mul_sub,
        Nat.mul_min_mul_left]
    refine ⟨_, getElem?_chunks (Nat.mul_pos hwidth hs) hbegin, hlength, fun i hi => ?_⟩
    have hcol : i * stride < width * min stride (height - j * stride) :=
      (mul_lt_of_lt_ceilDiv hs hi).trans_le
        (Nat.le_mul_of_pos_right width (lt_min hs (Nat.sub_pos_of_lt hrow)))
    refine ⟨hlength ▸ hcol, ?_⟩
    have hwithin : i * stride < width * stride :=
      hcol.trans_le (Nat.mul_le_mul_left width (Nat.min_le_left _ _))
    rw [List.getElem?_take_of_lt hwithin, List.getElem?_drop, hbefore]

/-! ### The step -/

/-- **Made chunk by chunk, a step that is left is what it is**: nothing of it is beyond a word, a
chunk or the memo. -/
theorem stepByChunks?_eq {r : Refinement} {known : Nat → Nat → Option Pixel}
    (hmemo : r.memo.Holds r.width r.height known) (hleft : r.done < r.total)
    (hpos : 0 < r.width) (hwidth : r.width < 2 ^ 32) (hheight : r.height < 2 ^ 32)
    (hsize : r.width * r.height * Frame.pixelBytes < 2 ^ 64) (tree : Tree) (feed : Feed) :
    ∃ s r', r.step tree feed = (some s, r') ∧ r.stepByChunks? tree feed = some (s, r') := by
  obtain ⟨stride, hstride⟩ : ∃ s, 2 ^ (r.total - (r.done + 1)) = s := ⟨_, rfl⟩
  have htotal : r.total ≤ 32 := stepCount_le_of_lt ((Nat.min_le_left _ _).trans_lt hwidth)
  have hs : 0 < stride := hstride ▸ Nat.two_pow_pos _
  have hslots : r.memo.slots.toList.length = r.width * r.height := hmemo.size_eq
  obtain ⟨rows, hrows, hrest⟩ := mapM_sweepChunk? (r.paint tree feed) (j := 0) hs hpos hwidth
    hslots (fun _ => by simpa using hheight)
  have hfetch := hrest [] #[] r.memo.filled (fun _ => by simp)
  rw [← samples_eq_rowPlaces, List.nil_append, Array.toArray_toList, Array.empty_append,
    List.nil_append] at hfetch
  have hcurrent : r.done + 1 < 2 ^ 32 := by omega
  have hshift : r.total - (r.done + 1) < 2 ^ 5 := by omega
  have hword : stride < 2 ^ 32 := hstride ▸ Nat.pow_lt_pow_right (by decide) (by omega)
  have hchunk : r.width * stride < 2 ^ 64 :=
    (Nat.mul_lt_mul'' hwidth hword).trans_eq (by decide)
  have himage : r.width ⌈/⌉ stride * (r.height ⌈/⌉ stride) * Frame.pixelBytes < 2 ^ 64 :=
    (Nat.mul_le_mul_right _ (Nat.mul_le_mul (ceilDiv_le_self _ hs)
      (ceilDiv_le_self _ hs))).trans_lt hsize
  have hfilled : r.memo.filled + (rows.map Row.computed).sum < 2 ^ 64 := by
    have hholds :=
      (foldl_fetchNext_holds (r.paint tree feed) (lt_of_mem_samples hs) (#[], r.memo) hmemo).2
    rw [hfetch] at hholds
    have hslots : r.memo.filled + (rows.map Row.computed).sum ≤ r.width * r.height :=
      (hholds.filled_eq.trans_le Array.countP_le_size).trans_eq hholds.size_eq
    exact (hslots.trans (Nat.le_mul_of_pos_right _ (by decide))).trans_lt hsize
  refine ⟨_, _, r.step_eq_fetch hleft tree feed, ?_⟩
  simp only [hstride, hfetch, stepByChunks?, Option.bind_eq_bind, fits?_of_lt hcurrent,
    Option.bind_some, if_pos (Nat.succ_le_of_lt hleft), fits?_of_lt hshift, fits?_of_lt hword,
    fits?_of_lt hchunk, hrows, fits?_of_lt himage, fits?_of_lt hfilled]

/-- A step that is made: how its number, its distance and its image come about, and what it leaves
in the memo, at the pixels that it takes and at all others. -/
structure StepFits (r : Refinement) (tree : Tree) (feed : Feed) (s : RefinementStep)
    (r' : Refinement) : Prop where
  step_eq : r.step tree feed = (some s, r')
  stepByChunks?_eq : r.stepByChunks? tree feed = some (s, r')
  current_eq : s.current = r.done + 1
  done_eq : r'.done = s.current
  total_eq : s.total = r.total
  stride_eq : s.stride = 2 ^ (s.total - s.current)
  width_eq : s.frame.width = r.width ⌈/⌉ s.stride
  height_eq : s.frame.height = r.height ⌈/⌉ s.stride
  length_bytes : s.frame.bytes.length = s.frame.width * s.frame.height * 4
  pixel?_eq : ∀ i < s.frame.width, ∀ j < s.frame.height, ∃ pixel,
    s.frame.pixel? i j = some pixel ∧
      r'.memo.get? (j * s.stride * r.width + i * s.stride) = some pixel
  get?_eq : ∀ col < r.width, ∀ row < r.height, r'.memo.get? (row * r.width + col) =
    (r.memo.get? (row * r.width + col)).or
      (if (col, row) ∈ samples r.width r.height s.stride then some (r.paint tree feed col row)
      else none)

theorem length_bytes (image : Frame) : image.bytes.length = image.pixels.size * 4 := by
  have hpixel (p : Pixel) : p.bytes.length = 4 := rfl
  rw [Frame.bytes, List.length_flatMap]
  simp only [hpixel, List.map_const', List.sum_replicate_nat, Array.length_toList]

/-- A step that is left fits into words and into the chunks of its rows, and takes the pixels at
its distance and no others. -/
theorem stepFits {r : Refinement} {known : Nat → Nat → Option Pixel}
    (hmemo : r.memo.Holds r.width r.height known) (hleft : r.done < r.total)
    (hpos : 0 < r.width) (hwidth : r.width < 2 ^ 32) (hheight : r.height < 2 ^ 32)
    (hsize : r.width * r.height * Frame.pixelBytes < 2 ^ 64) (tree : Tree) (feed : Feed) :
    ∃ s r', StepFits r tree feed s r' := by
  obtain ⟨stride, hstride⟩ : ∃ s, 2 ^ (r.total - (r.done + 1)) = s := ⟨_, rfl⟩
  have hs : 0 < stride := hstride ▸ Nat.two_pow_pos _
  obtain ⟨hpixels, hholds⟩ :=
    foldl_fetchNext_holds (r.paint tree feed) (lt_of_mem_samples hs) (#[], r.memo) hmemo
  obtain ⟨s, r', hstep, hchunks⟩ :=
    stepByChunks?_eq hmemo hleft hpos hwidth hheight hsize tree feed
  have heq := (r.step_eq_fetch hleft tree feed).symm.trans hstep
  rw [hstride, hpixels, Array.empty_append] at heq
  obtain ⟨hsome, rfl⟩ := Prod.mk.inj heq
  obtain rfl := Option.some.inj hsome
  have hknown : ∀ col < r.width, ∀ row < r.height,
      known col row = r.memo.get? (row * r.width + col) :=
    fun col hcol row hrow => (hmemo.get?_eq col hcol row hrow).symm
  refine ⟨_, _, hstep, hchunks, rfl, rfl, rfl, hstride.symm, rfl, rfl, ?_, fun i hi j hj => ?_,
    fun col hcol row hrow => ?_⟩
  · rw [length_bytes, List.size_toArray, List.length_map, samples, List.length_map,
      Frame.length_places, Nat.mul_comm (sampleCount _ _)]
    rfl
  · have hcol := mul_lt_of_lt_ceilDiv hs hi
    have hrow := mul_lt_of_lt_ceilDiv hs hj
    have hmem : (i * stride, j * stride) ∈ samples r.width r.height stride :=
      mem_samples_iff.mpr ⟨i, hi, j, hj, rfl⟩
    have himage := Frame.pixel?_ofPlaces (fun i j => (known (i * stride) (j * stride)).getD
      (r.paint tree feed (i * stride) (j * stride))) hi hj
    refine ⟨(known (i * stride) (j * stride)).getD (r.paint tree feed (i * stride) (j * stride)),
      ?_, ?_⟩
    · rw [samples, List.map_map]
      exact himage
    · rw [hholds.get?_eq _ hcol _ hrow, knownWith, if_pos hmem]
      cases known (i * stride) (j * stride) <;> rfl
  · rw [hholds.get?_eq _ hcol _ hrow, knownWith, hknown col hcol row hrow]

/-! ### All steps of a frame -/

theorem bounds_of_start {width height : Nat} {time : Float32} {r : Refinement}
    (h : start width height time = .ok (.ok r)) :
    0 < width ∧ 0 < height ∧ width * height * Frame.pixelBytes < 2 ^ 64 := by
  unfold start at h
  split at h
  · cases h
  · rename_i hsize
    unfold Frame.sizeError? at hsize
    split at hsize
    · cases hsize
    · rename_i hempty
      split at hsize
      · cases hsize
      · rename_i hbytes
        rw [not_or] at hempty
        exact ⟨Nat.pos_of_ne_zero hempty.1, Nat.pos_of_ne_zero hempty.2, Nat.lt_of_not_le hbytes⟩

/-- **The steps of a frame halve their distance until they take every pixel, and all they compute
on the way fits.**  This holds of every frame that can be rendered; the number of steps is right
for any two sizes. -/
theorem schedule_fits (width height : UInt32) :
    (stepCountWord width height).toNat = stepCount width.toNat height.toNat ∧
    let w := width.toNat
    let h := height.toNat
    let n := stepCount w h
    n = max 1 (Nat.clog 2 (min w h)) ∧
    min w h ≤ 2 ^ n ∧ (2 ≤ min w h → 2 ^ (n - 1) < min w h) ∧
    ∀ time r₀, start w h time = .ok (.ok r₀) →
      (∀ k, 1 ≤ k → k ≤ n → n - k < 32 ∧ SamplesFit w h (2 ^ (n - k))) ∧
      (∀ k, 1 ≤ k → k < n → samples w h (2 ^ (n - k)) ⊆ samples w h (2 ^ (n - (k + 1)))) ∧
      min (w ⌈/⌉ 2 ^ (n - 1)) (h ⌈/⌉ 2 ^ (n - 1)) = min 2 (min w h) ∧
      (∀ col < w, ∀ row < h, (samples w h (2 ^ (n - n))).count (col, row) = 1) ∧
      r₀.done = 0 ∧ ∀ calls, let r := r₀.performAll calls
        r.width = w ∧ r.height = h ∧ r.total = n ∧ r.memo.slots.size = w * h ∧
        (r.done < n → ∀ tree feed, ∃ s r', StepFits r tree feed s r') := by
  refine ⟨toNat_stepCountWord width height, ?_⟩
  intro w h n
  have hw : w < 2 ^ 32 := width.toNat_lt
  have hh : h < 2 ^ 32 := height.toNat_lt
  have hn : n ≤ 32 := stepCount_le_of_lt ((Nat.min_le_left _ _).trans_lt hw)
  refine ⟨stepCount_eq_max_clog w h, min_le_two_pow_stepCount w h, two_pow_lt_min,
    fun time r₀ hstart => ?_⟩
  obtain ⟨hwpos, hhpos, hbytes⟩ := bounds_of_start hstart
  refine ⟨fun k hk hkn => ?_, fun k _ _ => ?_, min_ceilDiv_first (lt_min hwpos hhpos),
    fun col hcol row hrow => ?_, start_eq_ok hstart ▸ rfl, ?_⟩
  · have hshift : n - k < 32 := by omega
    exact ⟨hshift, samplesFit (Nat.two_pow_pos _) (Nat.pow_lt_pow_right (by decide) hshift) hwpos⟩
  · exact samples_subset (Nat.two_pow_pos _) (Nat.pow_dvd_pow 2 (by omega))
  · rw [Nat.sub_self]
    exact count_samples_one hcol hrow
  · intro calls r
    have hr₀ : Accounts w h time .initial r₀ := by
      rw [start_eq_ok hstart]
      exact accounts_initial w h time
    obtain ⟨account, hr⟩ : ∃ account, Accounts w h time account r := ⟨_, hr₀.performAll calls⟩
    refine ⟨hr.width_eq, hr.height_eq, hr.total_eq, hr.memo.size_eq, fun hleft tree feed => ?_⟩
    have hmemo : r.memo.Holds r.width r.height (account.known w h time) := by
      rw [hr.width_eq, hr.height_eq]
      exact hr.memo
    rw [← hr.width_eq] at hwpos hw hbytes
    rw [← hr.height_eq] at hh hbytes
    exact stepFits hmemo (hr.total_eq ▸ hleft) hwpos hw hh hbytes tree feed

/-- The first of the two steps of a small frame. -/
theorem schedule_fits_three_five :
    start 3 5 0 = .ok (.ok ⟨3, 5, 0, 0, .empty 15⟩) ∧ SamplesFit 3 5 2 ∧
      ∃ s r', StepFits ⟨3, 5, 0, 0, .empty 15⟩ (.terminal 0 .x) .none s r' := by
  have hstart : start 3 5 0 = .ok (.ok ⟨3, 5, 0, 0, .empty 15⟩) := by decide
  obtain ⟨-, -, -, -, hschedule⟩ := schedule_fits 3 5
  obtain ⟨hsamples, -, -, -, -, hcalls⟩ := hschedule 0 _ hstart
  obtain ⟨-, -, -, -, hstep⟩ := hcalls []
  have hfit := (hsamples 1 (by decide) (by decide)).2
  exact ⟨hstart, hfit, hstep (by decide) (.terminal 0 .x) .none⟩

end Refinement

end GrammarArt
