import GrammarArt.Proofs.Frame.Sample
import GrammarArt.Refinement

/-! # The memo of a rendering

A memo is right for a painter of pixels if every pixel it holds is the one that the painter
gives to its place (`Memo.RightFor`).  Right memos stay right while pixels are fetched, and
what is fetched from them is what the painter gives, computed or remembered
(`fetchAll_eq`).  The places have to lie in the frame: the slot of a column and a row is
theirs alone only for columns below the width.
-/
namespace GrammarArt

namespace Memo

/-- Every pixel in the memo is that of its place in a frame of the given width. -/
def RightFor (width : Nat) (paint : Nat → Nat → Pixel) (memo : Memo) : Prop :=
  ∀ col row pixel, col < width → memo.get? (row * width + col) = some pixel →
    pixel = paint col row

@[simp] theorem get?_empty (size slot : Nat) : (empty size).get? slot = none := by
  rw [get?, empty, Array.getElem?_replicate]
  split <;> rfl

theorem rightFor_empty (width size : Nat) (paint : Nat → Nat → Pixel) :
    (empty size).RightFor width paint := by
  intro col row pixel _ h
  rw [get?_empty] at h
  cases h

/-- A memo that is right for one painter is right for another one that paints the same. -/
theorem RightFor.congr {width : Nat} {paint paint' : Nat → Nat → Pixel} {memo : Memo}
    (h : memo.RightFor width paint) (heq : ∀ col row, paint col row = paint' col row) :
    memo.RightFor width paint' :=
  fun col row pixel hcol hget => (h col row pixel hcol hget).trans (heq col row)

/-- Two places of a frame with one slot are the same place. -/
theorem slot_inj {width col row col' row' : Nat} (hcol : col < width) (hcol' : col' < width)
    (h : row * width + col = row' * width + col') : col = col' ∧ row = row' := by
  have hmod := congrArg (· % width) h
  have hdiv := congrArg (· / width) h
  have hpos : 0 < width := by omega
  simp only [Nat.mul_add_mod_self_right, Nat.mod_eq_of_lt hcol, Nat.mod_eq_of_lt hcol'] at hmod
  simp only [Nat.mul_comm _ width, Nat.mul_add_div hpos, Nat.div_eq_of_lt hcol,
    Nat.div_eq_of_lt hcol', Nat.add_zero] at hdiv
  exact ⟨hmod, hdiv⟩

theorem get?_set {memo : Memo} {slot slot' filled : Nat} {pixel pixel' : Pixel}
    (h : get? ⟨memo.slots.setIfInBounds slot (some pixel), filled⟩ slot' = some pixel') :
    slot' = slot ∧ pixel' = pixel ∨ memo.get? slot' = some pixel' := by
  rw [get?, Array.getElem?_setIfInBounds] at h
  split at h
  · rename_i hslot
    split at h
    · exact Or.inl ⟨hslot.symm, (Option.some.inj h).symm⟩
    · cases h
  · exact Or.inr h

/-- A pixel that is fetched from a right memo is that of its place, and the memo is right
afterwards. -/
theorem RightFor.fetch {width : Nat} {paint : Nat → Nat → Pixel} {memo : Memo}
    (h : memo.RightFor width paint) {col : Nat} (hcol : col < width) (row : Nat) :
    (memo.fetch (row * width + col) fun _ => paint col row).1 = paint col row ∧
      (memo.fetch (row * width + col) fun _ => paint col row).2.RightFor width paint := by
  unfold Memo.fetch
  split
  · rename_i pixel hget
    exact ⟨h col row pixel hcol hget, h⟩
  · refine ⟨rfl, fun col' row' pixel hcol' hget => ?_⟩
    rcases get?_set hget with ⟨hslot, hpixel⟩ | hget
    · obtain ⟨rfl, rfl⟩ := slot_inj hcol' hcol hslot
      exact hpixel
    · exact h col' row' pixel hcol' hget

end Memo

namespace Refinement

variable {width : Nat} {paint : Nat → Nat → Pixel}

/-- What has been fetched, pixels and memo, with the pixel at one more place. -/
def fetchNext (width : Nat) (paint : Nat → Nat → Pixel) (fetched : Array Pixel × Memo)
    (place : Nat × Nat) : Array Pixel × Memo :=
  let next := fetched.2.fetch (place.2 * width + place.1) fun _ => paint place.1 place.2
  (fetched.1.push next.1, next.2)

theorem fetchAll_eq_foldl (width : Nat) (paint : Nat → Nat → Pixel)
    (places : List (Nat × Nat)) (memo : Memo) :
    fetchAll width paint places memo =
      places.foldl (fetchNext width paint) (#[], memo) :=
  rfl

/-- One more place adds the pixel painted there, and leaves the memo right. -/
theorem fetchNext_eq {fetched : Array Pixel × Memo} (hmemo : fetched.2.RightFor width paint)
    {place : Nat × Nat} (hplace : place.1 < width) :
    (fetchNext width paint fetched place).1 = fetched.1.push (paint place.1 place.2) ∧
      (fetchNext width paint fetched place).2.RightFor width paint := by
  obtain ⟨hpixel, hright⟩ := hmemo.fetch hplace place.2
  exact ⟨congrArg fetched.1.push hpixel, hright⟩

/-- So do all the places that are left, whatever has been fetched before them. -/
theorem foldl_fetchNext {places : List (Nat × Nat)}
    (hplaces : ∀ place ∈ places, place.1 < width) :
    ∀ fetched : Array Pixel × Memo, fetched.2.RightFor width paint →
      (places.foldl (fetchNext width paint) fetched).1 =
          fetched.1 ++ (places.map fun place => paint place.1 place.2).toArray ∧
        (places.foldl (fetchNext width paint) fetched).2.RightFor width paint := by
  induction places with
  | nil => intro fetched hmemo; exact ⟨by simp, hmemo⟩
  | cons place places ih =>
    intro fetched hmemo
    obtain ⟨hpixels, hright⟩ := fetchNext_eq hmemo (hplaces place List.mem_cons_self)
    obtain ⟨hrest, hend⟩ :=
      ih (fun place hplace => hplaces place (List.mem_cons_of_mem _ hplace)) _ hright
    refine ⟨?_, hend⟩
    rw [List.foldl_cons, hrest, hpixels]
    simp

/-- **Pixels fetched from a right memo are freshly painted ones.** -/
theorem fetchAll_eq {places : List (Nat × Nat)} (hplaces : ∀ place ∈ places, place.1 < width)
    {memo : Memo} (hmemo : memo.RightFor width paint) :
    (fetchAll width paint places memo).1 =
        (places.map fun place => paint place.1 place.2).toArray ∧
      (fetchAll width paint places memo).2.RightFor width paint := by
  obtain ⟨hpixels, hright⟩ := foldl_fetchNext hplaces (#[], memo) hmemo
  rw [fetchAll_eq_foldl]
  exact ⟨by rw [hpixels, Array.empty_append], hright⟩

end Refinement

end GrammarArt
