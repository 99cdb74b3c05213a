import GrammarArt.Proofs.Refinement.Step

/-! # What a memo knows after any calls

A rendering can be stepped, with another tree and another feed each time, and its memo can be
forgotten in between, with or without going back to the first step.  An `Account` of such calls
keeps the number of finished steps and the sweeps since the memo was last forgotten, each with
the tree and the feed it was made for, but not a single pixel.

It says all there is to say of the memo (`Accounts`): a slot is filled if some sweep took its
pixel, it holds the color for the tree and the feed of the *earliest* of these sweeps, and the
number of pixels computed is that of the filled slots.  Every call keeps this
(`Accounts.perform`), and the image of a step is read off the account with that step in it
(`frames_show_earliest`).
-/
namespace GrammarArt

namespace Memo

/-! ### Fetching pixels -/

/-- The memo has a slot for each place of a frame, and these hold what is known of the places. -/
structure Holds (width height : Nat) (known : Nat → Nat → Option Pixel) (memo : Memo) : Prop where
  size_eq : memo.slots.size = width * height
  get?_eq : ∀ col < width, ∀ row < height, memo.get? (row * width + col) = known col row
  filled_eq : memo.filled = memo.slots.countP Option.isSome

variable {width height : Nat} {known : Nat → Nat → Option Pixel} {memo : Memo}

theorem holds_empty (width height : Nat) :
    (empty (width * height)).Holds width height fun _ _ => none where
  size_eq := Array.size_replicate
  get?_eq _ _ _ _ := get?_empty _ _
  filled_eq := by simp [empty, Array.countP_replicate]

theorem Holds.congr {known' : Nat → Nat → Option Pixel} (h : memo.Holds width height known)
    (heq : ∀ col < width, ∀ row < height, known col row = known' col row) :
    memo.Holds width height known' where
  size_eq := h.size_eq
  get?_eq col hcol row hrow := (h.get?_eq col hcol row hrow).trans (heq col hcol row hrow)
  filled_eq := h.filled_eq

/-- What is known when one more pixel is. -/
def learn (known : Nat → Nat → Option Pixel) (place : Nat × Nat) (pixel : Pixel) (col row : Nat) :
    Option Pixel :=
  if (col, row) = place then some pixel else known col row

/-- What is fetched is known then: as it was before, or else as it was painted. -/
theorem Holds.fetch (h : memo.Holds width height known) {col row : Nat} (hcol : col < width)
    (hrow : row < height) (paint : Unit → Pixel) :
    (memo.fetch (row * width + col) paint).1 = (known col row).getD (paint ()) ∧
      (memo.fetch (row * width + col) paint).2.Holds width height
        (learn known (col, row) ((known col row).getD (paint ()))) := by
  have hslot := h.get?_eq col hcol row hrow
  have hlt : row * width + col < memo.slots.size := by
    rw [h.size_eq, Nat.mul_comm width]
    exact Frame.lt_mul_of_lt_of_lt hcol hrow
  cases hknown : known col row with
  | some pixel =>
    rw [hknown] at hslot
    rw [Memo.fetch, hslot]
    refine ⟨rfl, h.congr fun col' _ row' _ => ?_⟩
    unfold learn
    split
    · rename_i heq
      cases heq
      exact hknown
    · rfl
  | none =>
    rw [hknown] at hslot
    have hempty : memo.slots[row * width + col] = none := by
      rw [get?, Array.getElem?_eq_getElem hlt] at hslot
      exact hslot
    rw [Memo.fetch, hslot]
    refine ⟨rfl, Array.size_setIfInBounds.trans h.size_eq, fun col' hcol' row' hrow' => ?_, ?_⟩
    · rw [get?, Array.getElem?_setIfInBounds, learn]
      by_cases heq : row * width + col = row' * width + col'
      · obtain ⟨rfl, rfl⟩ := slot_inj hcol hcol' heq
        rw [if_pos rfl, if_pos hlt, if_pos rfl]
        rfl
      · rw [if_neg heq, if_neg (fun hplace => heq (by cases hplace; rfl))]
        exact h.get?_eq col' hcol' row' hrow'
    · show memo.filled + 1 = (memo.slots.setIfInBounds _ _).countP _
      rw [Array.setIfInBounds, dif_pos hlt, Array.countP_set hlt, hempty, h.filled_eq]
      rfl

end Memo

namespace Refinement

open Memo

variable {width height : Nat}

/-- What is known after the pixels at some places were fetched. -/
def knownWith (known : Nat → Nat → Option Pixel) (paint : Nat → Nat → Pixel)
    (places : List (Nat × Nat)) (col row : Nat) : Option Pixel :=
  (known col row).or (if (col, row) ∈ places then some (paint col row) else none)

theorem knownWith_cons (known : Nat → Nat → Option Pixel) (paint : Nat → Nat → Pixel)
    (place : Nat × Nat) (places : List (Nat × Nat)) :
    knownWith (learn known place ((known place.1 place.2).getD (paint place.1 place.2))) paint
      places = knownWith known paint (place :: places) := by
  funext col row
  by_cases hplace : (col, row) = place
  · subst hplace
    cases h : known col row <;> simp [knownWith, learn, h]
  · simp [knownWith, learn, hplace]

/-- What the memo does not know is painted, and all of it is known then. -/
theorem foldl_fetchNext_holds (paint : Nat → Nat → Pixel) {places : List (Nat × Nat)}
    (hplaces : ∀ place ∈ places, place.1 < width ∧ place.2 < height) :
    ∀ {known : Nat → Nat → Option Pixel} (fetched : Array Pixel × Memo),
      fetched.2.Holds width height known →
        (places.foldl (fetchNext width paint) fetched).1 = fetched.1 ++
          (places.map fun place => (known place.1 place.2).getD (paint place.1 place.2)).toArray ∧
        (places.foldl (fetchNext width paint) fetched).2.Holds width height
          (knownWith known paint places) := by
  induction places with
  | nil =>
    intro known fetched h
    refine ⟨by simp, h.congr fun col _ row _ => ?_⟩
    simp [knownWith]
  | cons place places ih =>
    intro known fetched h
    obtain ⟨⟨hcol, hrow⟩, hrest⟩ := List.forall_mem_cons.mp hplaces
    obtain ⟨hpixel, hnext⟩ := h.fetch hcol hrow fun _ => paint place.1 place.2
    obtain ⟨hpixels, hholds⟩ := ih hrest (fetchNext width paint fetched place) hnext
    rw [knownWith_cons] at hholds
    refine ⟨?_, hholds⟩
    -- A pixel that was painted just now is fetched as it was painted.
    have hagain : ∀ other ∈ places,
        (learn known place ((known place.1 place.2).getD (paint place.1 place.2)) other.1
          other.2).getD (paint other.1 other.2) =
            (known other.1 other.2).getD (paint other.1 other.2) := by
      intro other _
      unfold learn
      split
      · rename_i heq
        cases heq
        rfl
      · rfl
    have hfirst : (fetchNext width paint fetched place).1 =
        fetched.1.push ((known place.1 place.2).getD (paint place.1 place.2)) :=
      congrArg fetched.1.push hpixel
    rw [List.foldl_cons, hpixels, hfirst, List.map_congr_left hagain]
    simp

/-! ### The places of a step -/

/-- A step takes the pixels whose column and row are multiples of its distance. -/
theorem mem_samples {stride : Nat} (hs : 0 < stride) {col row : Nat} :
    (col, row) ∈ samples width height stride ↔
      col < width ∧ row < height ∧ stride ∣ col ∧ stride ∣ row := by
  have hsample (n i : Nat) : i < sampleCount n stride ↔ i * stride < n := by
    rw [Nat.mul_comm, ← Nat.not_le, ← Nat.not_le, not_iff_not]
    exact ceilDiv_le_iff_le_mul hs
  simp only [samples, List.mem_map, Prod.exists, Frame.mem_places, Prod.mk.injEq, hsample]
  constructor
  · rintro ⟨i, j, ⟨hi, hj⟩, rfl, rfl⟩
    exact ⟨hi, hj, Nat.dvd_mul_left _ _, Nat.dvd_mul_left _ _⟩
  · rintro ⟨hcol, hrow, ⟨i, rfl⟩, ⟨j, rfl⟩⟩
    exact ⟨i, j, ⟨Nat.mul_comm stride i ▸ hcol, Nat.mul_comm stride j ▸ hrow⟩,
      Nat.mul_comm _ _, Nat.mul_comm _ _⟩

/-! ### Calls and their account -/

/-- A call that changes a rendering. -/
inductive Call where
  | step (tree : Tree) (feed : Feed)
  | invalidate
  | rewind

/-- What a call returns, and the rendering after it. -/
def perform (r : Refinement) : Call → Option RefinementStep × Refinement
  | .step tree feed => r.step tree feed
  | .invalidate => (none, r.invalidate)
  | .rewind => (none, r.rewind)

/-- The rendering after some calls. -/
def performAll (r : Refinement) (calls : List Call) : Refinement :=
  calls.foldl (fun r call => (r.perform call).2) r

/-- A finished step: the distance of its pixels, and the tree and the feed it was made for. -/
structure Sweep where
  stride : Nat
  tree : Tree
  feed : Feed

namespace Sweep

/-- Whether a step took the pixel of a column and a row. -/
def takes (s : Sweep) (col row : Nat) : Bool := decide (s.stride ∣ col ∧ s.stride ∣ row)

/-- The pixel of a column and a row, for the tree and the feed of a step. -/
def pixel (width height : Nat) (time : Float32) (s : Sweep) (col row : Nat) : Pixel :=
  (s.tree.eval (Frame.point width height time col row) s.feed).pixel

end Sweep

/-- What there is to tell of calls: how many steps are finished, and which ones were made since
the memo was last forgotten, the earliest first. -/
structure Account where
  done : Nat
  sweeps : List Sweep

namespace Account

/-- Nothing was called yet. -/
def initial : Account := ⟨0, []⟩

/-- The account with one more step. -/
def add (account : Account) (s : Sweep) : Account := ⟨account.done + 1, account.sweeps ++ [s]⟩

/-- The next step, of so many in all. -/
def sweep (account : Account) (total : Nat) (tree : Tree) (feed : Feed) : Sweep :=
  ⟨2 ^ (total - (account.done + 1)), tree, feed⟩

/-- The account after a call.  A step is made as long as one is left; to invalidate keeps the
number of finished steps. -/
def after (total : Nat) (account : Account) : Call → Account
  | .step tree feed =>
    if account.done < total then account.add (account.sweep total tree feed) else account
  | .invalidate => ⟨account.done, []⟩
  | .rewind => initial

/-- The account of some calls. -/
def ofCalls (total : Nat) (calls : List Call) : Account := calls.foldl (after total) initial

/-- The earliest of the steps told of that took a pixel. -/
def earliest? (account : Account) (col row : Nat) : Option Sweep :=
  account.sweeps.find? fun s => s.takes col row

/-- What is known of a pixel. -/
def known (width height : Nat) (time : Float32) (account : Account) (col row : Nat) :
    Option Pixel :=
  (account.earliest? col row).map fun s => s.pixel width height time col row

theorem isSome_known {width height : Nat} {time : Float32} {account : Account} {col row : Nat} :
    (account.known width height time col row).isSome = true ↔
      ∃ s ∈ account.sweeps, s.takes col row = true := by
  rw [known, Option.isSome_map, earliest?, List.find?_isSome]

end Account

variable {time : Float32} {account : Account} {r : Refinement}

/-- The rendering is as the account tells. -/
structure Accounts (width height : Nat) (time : Float32) (account : Account) (r : Refinement) :
    Prop where
  width_eq : r.width = width
  height_eq : r.height = height
  time_eq : r.time = time
  done_eq : r.done = account.done
  memo : r.memo.Holds width height (account.known width height time)

theorem accounts_initial (width height : Nat) (time : Float32) :
    Accounts width height time .initial ⟨width, height, time, 0, .empty (width * height)⟩ :=
  ⟨rfl, rfl, rfl, rfl, Memo.holds_empty width height⟩

theorem Accounts.total_eq (h : Accounts width height time account r) :
    r.total = stepCount width height := by
  rw [total, h.width_eq, h.height_eq]

/-- The image of a step shows, at every pixel that the step takes, the color for the earliest
step told of that took this pixel. -/
structure ShowsEarliest (width height : Nat) (time : Float32) (account : Account)
    (image : Frame) (stride : Nat) : Prop where
  width_eq : image.width = width ⌈/⌉ stride
  height_eq : image.height = height ⌈/⌉ stride
  size_eq : image.pixels.size = image.width * image.height
  pixel?_eq : ∀ i < image.width, ∀ j < image.height,
    ∃ s, account.earliest? (i * stride) (j * stride) = some s ∧
      image.pixel? i j = some (s.pixel width height time (i * stride) (j * stride))

/-- The step that is told of last is the earliest one only for pixels that no other one took. -/
theorem Account.earliest?_add (account : Account) (s : Sweep) (col row : Nat) :
    (account.add s).earliest? col row =
      (account.earliest? col row).or (if s.takes col row then some s else none) := by
  rw [add, earliest?, List.find?_append, List.find?_singleton]
  rfl

/-- What a step fetches becomes known, as the account with this step tells. -/
theorem knownWith_samples {s : Sweep} (hs : 0 < s.stride) {col row : Nat} (hcol : col < width)
    (hrow : row < height) :
    knownWith (account.known width height time) (s.pixel width height time)
        (samples width height s.stride) col row =
      (account.add s).known width height time col row := by
  have htakes : (col, row) ∈ samples width height s.stride ↔ s.takes col row = true := by
    rw [mem_samples hs, Sweep.takes, decide_eq_true_eq]
    exact ⟨fun h => h.2.2, fun h => ⟨hcol, hrow, h⟩⟩
  rw [Account.known, Account.earliest?_add, Option.map_or, knownWith]
  by_cases hmem : (col, row) ∈ samples width height s.stride
  · rw [if_pos hmem, if_pos (htakes.mp hmem)]
    rfl
  · rw [if_neg hmem, if_neg (fun h => hmem (htakes.mpr h))]
    rfl

/-- What a step fetches shows, at every pixel that it takes, the earliest step that did. -/
theorem Account.showsEarliest_samples (account : Account) (s : Sweep) :
    ShowsEarliest width height time (account.add s)
      ⟨width ⌈/⌉ s.stride, height ⌈/⌉ s.stride,
        ((samples width height s.stride).map fun place =>
          (account.known width height time place.1 place.2).getD
            (s.pixel width height time place.1 place.2)).toArray⟩ s.stride where
  width_eq := rfl
  height_eq := rfl
  size_eq := by
    rw [List.size_toArray, List.length_map, samples, List.length_map, Frame.length_places,
      Nat.mul_comm]
    rfl
  pixel?_eq i hi j hj := by
    have htakes : s.takes (i * s.stride) (j * s.stride) = true :=
      decide_eq_true ⟨Nat.dvd_mul_left _ _, Nat.dvd_mul_left _ _⟩
    have hpixel := Frame.pixel?_ofPlaces (fun i j =>
      (account.known width height time (i * s.stride) (j * s.stride)).getD
        (s.pixel width height time (i * s.stride) (j * s.stride))) hi hj
    rw [Account.earliest?_add, if_pos htakes, samples, List.map_map]
    cases hearliest : account.earliest? (i * s.stride) (j * s.stride) with
    | some s' =>
      refine ⟨s', rfl, hpixel.trans ?_⟩
      rw [Account.known, hearliest]
      rfl
    | none =>
      refine ⟨s, rfl, hpixel.trans ?_⟩
      rw [Account.known, hearliest]
      rfl

/-- A step that is left fetches the pixels that it takes. -/
theorem step_eq_fetch (h : r.done < r.total) (tree : Tree) (feed : Feed) :
    r.step tree feed =
      (some ⟨r.done + 1, r.total, 2 ^ (r.total - (r.done + 1)),
        ⟨r.width ⌈/⌉ 2 ^ (r.total - (r.done + 1)), r.height ⌈/⌉ 2 ^ (r.total - (r.done + 1)),
          ((samples r.width r.height (2 ^ (r.total - (r.done + 1)))).foldl
            (fetchNext r.width (r.paint tree feed)) (#[], r.memo)).1⟩⟩,
        { r with
          done := r.done + 1
          memo := ((samples r.width r.height (2 ^ (r.total - (r.done + 1)))).foldl
            (fetchNext r.width (r.paint tree feed)) (#[], r.memo)).2 }) := by
  have hdone : ¬ r.isDone = true := by simpa [isDone] using h
  rw [step, if_neg hdone]
  rfl

/-- **A step that is left tells of itself and shows what it tells.** -/
theorem Accounts.step (h : Accounts width height time account r)
    (hleft : account.done < stepCount width height) (tree : Tree) (feed : Feed) :
    ∃ image r', r.step tree feed = (some ⟨account.done + 1, stepCount width height,
        2 ^ (stepCount width height - (account.done + 1)), image⟩, r') ∧
      Accounts width height time (account.after (stepCount width height) (.step tree feed)) r' ∧
      ShowsEarliest width height time
        (account.after (stepCount width height) (.step tree feed)) image
        (2 ^ (stepCount width height - (account.done + 1))) := by
  obtain ⟨rfl, rfl, rfl, hdone, hmemo⟩ := h
  have hstep := r.step_eq_fetch (hdone ▸ hleft) tree feed
  have hplaces : ∀ place ∈ samples r.width r.height (2 ^ (r.total - (r.done + 1))),
      place.1 < r.width ∧ place.2 < r.height := fun place hplace =>
    have hmem := (mem_samples (Nat.two_pow_pos _)).mp hplace
    ⟨hmem.1, hmem.2.1⟩
  obtain ⟨hpixels, hholds⟩ := foldl_fetchNext_holds (r.paint tree feed) hplaces
    (#[], r.memo) hmemo
  rw [hpixels, hdone, Array.empty_append] at hstep
  rw [hdone] at hholds
  rw [Account.after, if_pos hleft]
  exact ⟨_, _, hstep,
    ⟨rfl, rfl, rfl, rfl, hholds.congr fun col hcol row hrow =>
      knownWith_samples (s := account.sweep r.total tree feed) (Nat.two_pow_pos _) hcol hrow⟩,
    account.showsEarliest_samples (account.sweep r.total tree feed)⟩

theorem Accounts.step_of_le (h : Accounts width height time account r)
    (hdone : stepCount width height ≤ account.done) (tree : Tree) (feed : Feed) :
    r.step tree feed = (none, r) :=
  step_eq_of_le (by rwa [h.total_eq, h.done_eq]) tree feed

/-- Every call leaves the rendering as its account tells. -/
theorem Accounts.perform (h : Accounts width height time account r) (call : Call) :
    Accounts width height time (account.after (stepCount width height) call)
      (r.perform call).2 := by
  have hempty : (r.invalidate).memo.Holds width height
      fun _ _ => none := by
    rw [invalidate, h.width_eq, h.height_eq]
    exact Memo.holds_empty width height
  cases call with
  | step tree feed =>
    rcases Nat.lt_or_ge account.done (stepCount width height) with hleft | hdone
    · obtain ⟨image, r', hstep, hr', -⟩ := h.step hleft tree feed
      rw [Refinement.perform, hstep]
      exact hr'
    · rw [Refinement.perform, h.step_of_le hdone, Account.after, if_neg (Nat.not_lt.mpr hdone)]
      exact h
  | invalidate => exact ⟨h.width_eq, h.height_eq, h.time_eq, h.done_eq, hempty⟩
  | rewind => exact ⟨h.width_eq, h.height_eq, h.time_eq, rfl, hempty⟩

/-- So do any calls, one after the other. -/
theorem Accounts.performAll (h : Accounts width height time account r) (calls : List Call) :
    Accounts width height time (calls.foldl (Account.after (stepCount width height)) account)
      (r.performAll calls) := by
  induction calls generalizing account r with
  | nil => exact h
  | cons call calls ih => exact ih (h.perform call)

/-! ### All pixels at last -/

/-- If all places are known, as many pixels were computed as the frame has. -/
theorem Holds.filled_of_forall {known : Nat → Nat → Option Pixel} {memo : Memo}
    (h : memo.Holds width height known)
    (hall : ∀ col < width, ∀ row < height, (known col row).isSome = true) :
    memo.filled = width * height := by
  rw [h.filled_eq, ← h.size_eq, Array.countP_eq_size]
  intro slot hslot
  obtain ⟨k, hk, rfl⟩ := Array.getElem_of_mem hslot
  have hplace : k < height * width := by rwa [h.size_eq, Nat.mul_comm] at hk
  have hpos : 0 < width := Nat.pos_of_mul_pos_left (Nat.zero_lt_of_lt hplace)
  have hrow : k / width < height := (Nat.div_lt_iff_lt_mul hpos).mpr hplace
  have hget := h.get?_eq (k % width) (Nat.mod_lt k hpos) (k / width) hrow
  rw [Nat.div_add_mod', get?, Array.getElem?_eq_getElem hk] at hget
  rw [show memo.slots[k] = _ from hget]
  exact hall _ (Nat.mod_lt k hpos) _ hrow

/-- A step with no distance takes every pixel. -/
theorem Accounts.evaluations_eq (h : Accounts width height time account r) {s : Sweep}
    (hs : s ∈ account.sweeps) (hstride : s.stride = 1) : r.evaluations = width * height := by
  refine Holds.filled_of_forall h.memo fun col _ row _ => Account.isSome_known.mpr ⟨s, hs, ?_⟩
  rw [Sweep.takes, hstride]
  exact decide_eq_true ⟨Nat.one_dvd col, Nat.one_dvd row⟩

/-! ### All calls -/

/-- **Every image shows the earliest step that took its pixels.**  After any calls, the memo
holds what their account tells, one pixel for each place that a step took since it was last
forgotten, and each of them was computed once.  A step that is left shows the pixels of the
account with this step, and after the last one as many were computed as the frame has; when
no step is left, nothing is shown and nothing changes. -/
theorem frames_show_earliest {r₀ : Refinement} (h : start width height time = .ok (.ok r₀))
    (calls : List Call) :
    let total := stepCount width height
    let account := Account.ofCalls total calls
    let r := r₀.performAll calls
    Accounts width height time account r ∧
    (∀ col < width, ∀ row < height, (r.memo.get? (row * width + col)).isSome = true ↔
      ∃ s ∈ account.sweeps, s.takes col row = true) ∧
    r.evaluations = r.memo.slots.countP Option.isSome ∧
    r.invalidate.done = r.done ∧ r.rewind.done = 0 ∧
    ∀ tree feed,
      (r.done < total → ∃ image r',
        r.step tree feed = (some ⟨r.done + 1, total, 2 ^ (total - (r.done + 1)), image⟩, r') ∧
        ShowsEarliest width height time (Account.ofCalls total (calls ++ [.step tree feed])) image
          (2 ^ (total - (r.done + 1))) ∧
        (r.done + 1 = total → r'.evaluations = width * height)) ∧
      (total ≤ r.done → r.step tree feed = (none, r)) := by
  intro total account r
  have hr : Accounts width height time account r := by
    have hr₀ : Accounts width height time .initial r₀ := by
      rw [start_eq_ok h]
      exact accounts_initial width height time
    exact hr₀.performAll calls
  refine ⟨hr, fun col hcol row hrow => ?_, hr.memo.filled_eq, rfl, rfl, fun tree feed => ⟨?_, ?_⟩⟩
  · rw [hr.memo.get?_eq col hcol row hrow]
    exact Account.isSome_known
  · intro hleft
    rw [hr.done_eq] at hleft ⊢
    obtain ⟨image, r', hstep, hr', hshows⟩ := hr.step hleft tree feed
    have hcalls : Account.ofCalls total (calls ++ [.step tree feed]) =
        account.after total (.step tree feed) := List.foldl_concat _ _ _ _
    rw [hcalls]
    refine ⟨image, r', hstep, hshows, fun hlast => ?_⟩
    refine hr'.evaluations_eq (s := account.sweep total tree feed) ?_ ?_
    · rw [Account.after, if_pos hleft]
      exact List.mem_append_right _ (List.mem_singleton.mpr rfl)
    · rw [Account.sweep, hlast, Nat.sub_self]
      rfl
  · intro hdone
    exact hr.step_of_le (hr.done_eq ▸ hdone) tree feed

/-- The last of the two steps of a small frame shows the first one's tree where that took the
pixel. -/
theorem frames_show_earliest_three_five :
    ∃ r₀ r₁ image r₂, start 3 5 0 = .ok (.ok r₀) ∧
      r₀.performAll [.step (.terminal 0 .x) .none] = r₁ ∧
      r₁.step (.terminal 0 .y) .none = (some ⟨2, 2, 1, image⟩, r₂) ∧
      ShowsEarliest 3 5 0
        ⟨2, [⟨2, .terminal 0 .x, .none⟩, ⟨1, .terminal 0 .y, .none⟩]⟩ image 1 ∧
      r₂.evaluations = 15 := by
  have hstart : start 3 5 0 = .ok (.ok ⟨3, 5, 0, 0, .empty 15⟩) := by decide
  have htotal : stepCount 3 5 = 2 := by decide
  obtain ⟨hr, -, -, -, -, hstep⟩ := frames_show_earliest hstart [.step (.terminal 0 .x) .none]
  have hdone := hr.done_eq
  obtain ⟨image, r₂, heq, hshows, hevaluations⟩ := (hstep (.terminal 0 .y) .none).1
    (by rw [hdone, htotal]; decide)
  rw [hdone, htotal] at heq hshows hevaluations
  exact ⟨_, _, image, r₂, hstart, rfl, heq, hshows, hevaluations rfl⟩

end Refinement

end GrammarArt
