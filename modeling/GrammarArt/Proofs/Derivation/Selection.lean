import GrammarArt.Proofs.Binary32.Product
import GrammarArt.Proofs.Derivation.Choice

/-! # Which place is chosen

A number `u` chooses the first place whose cumulative weight is above its part of the total, and
where rounding leaves none above it, the last place of positive weight (`Chosen`).  These two rules
fit together (`chooseWeighted_spec`): a greater number chooses no earlier place, whichever of the
rules either of them goes by, since what the first rule finds has a positive weight and so is not
behind what the second one finds.

Zeros do not matter, wherever they stand.  They are counted out by `rank`, which says how many
positive weights stand in front of a place: what is chosen among all weights has the rank of what
is chosen among the positive ones (`chooseWeighted_positives`).  On the way every sum is the same
with the zeros as without them, up to the sign of a zero (`Agree`).
-/
namespace GrammarArt

open Binary32

/-- The sum of the weights up to a place, its own among them. -/
def cumulative (weights : List Float32) (i : Nat) : Float32 :=
  (weights.take (i + 1)).foldl (· + ·) 0

/-- The place that is chosen: the first whose cumulative weight is above the threshold, or the last
of positive weight if no cumulative weight is. -/
inductive Chosen (weights : List Float32) (threshold : Float32) (i : Nat) : Prop where
  | above (habove : threshold < cumulative weights i)
    (hfirst : ∀ j < i, ¬ threshold < cumulative weights j)
  | last (hbelow : ∀ j < weights.length, ¬ threshold < cumulative weights j)
    (hlast : ∀ j w, i < j → weights[j]? = some w → ¬ 0 < w)

variable {weights weights' : List Float32} {threshold threshold' before before' u u' v w : Float32}
  {i i' : Nat}

/-! ### What is found -/

theorem of_firstAbove (h : firstAbove threshold before weights = some i) :
    threshold < (weights.take (i + 1)).foldl (· + ·) before ∧
      ∀ j < i, ¬ threshold < (weights.take (j + 1)).foldl (· + ·) before := by
  induction weights generalizing before i with
  | nil => cases h
  | cons weight weights ih =>
    rw [firstAbove] at h
    split at h
    · rename_i habove
      cases h
      exact ⟨habove, fun j hj => absurd hj (Nat.not_lt_zero j)⟩
    · rename_i hbelow
      obtain ⟨k, hk, rfl⟩ := Option.map_eq_some_iff.mp h
      obtain ⟨habove, hfirst⟩ := ih hk
      refine ⟨habove, fun j hj => ?_⟩
      cases j with
      | zero => exact hbelow
      | succ j => exact hfirst j (Nat.lt_of_succ_lt_succ hj)

theorem not_lt_of_firstAbove_eq_none (h : firstAbove threshold before weights = none) :
    ∀ j < weights.length, ¬ threshold < (weights.take (j + 1)).foldl (· + ·) before := by
  induction weights generalizing before with
  | nil => nofun
  | cons weight weights ih =>
    rw [firstAbove] at h
    split at h
    · cases h
    · rename_i hbelow
      intro j hj
      cases j with
      | zero => exact hbelow
      | succ j => exact ih (Option.map_eq_none_iff.mp h) j (Nat.lt_of_succ_lt_succ hj)

theorem not_pos_of_lastPositive_eq_none (h : lastPositive weights = none) :
    ∀ w ∈ weights, ¬ 0 < w := by
  intro w hw hpos
  have hsome := isSome_lastPositive_iff.mpr ⟨w, hw, hpos⟩
  rw [h] at hsome
  cases hsome

/-- Behind the last positive weight there is none. -/
theorem not_pos_of_lastPositive (h : lastPositive weights = some i) :
    ∀ j w, i < j → weights[j]? = some w → ¬ 0 < w := by
  induction weights generalizing i with
  | nil => cases h
  | cons weight weights ih =>
    rw [lastPositive] at h
    intro j w hj hw
    obtain ⟨j, rfl⟩ : ∃ k, j = k + 1 := ⟨j - 1, by omega⟩
    rw [List.getElem?_cons_succ] at hw
    split at h
    · rename_i k hk
      cases h
      exact ih hk j w (Nat.lt_of_succ_lt_succ hj) hw
    · rename_i hnone
      exact not_pos_of_lastPositive_eq_none hnone w (List.mem_of_getElem? hw)

/-- **What is chosen is the place that the rules say.** -/
theorem chosen_of_chooseWeighted (h : chooseWeighted weights u = some i) :
    Chosen weights (u * totalWeight weights) i := by
  rw [chooseWeighted] at h
  split at h
  · rcases Option.or_eq_some_iff.mp h with hfirst | ⟨hnone, hlast⟩
    · obtain ⟨habove, hfirst⟩ := of_firstAbove hfirst
      exact .above habove hfirst
    · exact .last (not_lt_of_firstAbove_eq_none hnone) (not_pos_of_lastPositive hlast)
  · cases h

/-! ### Greater numbers -/

/-- A greater threshold is exceeded no earlier. -/
theorem exists_firstAbove_le (hweights : ∀ w ∈ weights, 0 ≤ w) (hbefore : 0 ≤ before)
    (hthreshold : 0 ≤ threshold) (hthreshold' : 0 ≤ threshold') (hle : threshold ≤ threshold')
    (h : firstAbove threshold' before weights = some i') :
    ∃ i ≤ i', firstAbove threshold before weights = some i := by
  induction weights generalizing before i' with
  | nil => cases h
  | cons weight weights ih =>
    obtain ⟨hweight, hrest⟩ := List.forall_mem_cons.mp hweights
    have hsum := add_nonneg hbefore hweight
    rw [firstAbove] at h ⊢
    by_cases habove : threshold < before + weight
    · exact ⟨0, Nat.zero_le _, if_pos habove⟩
    · have hbelow : ¬ threshold' < before + weight := by
        rw [lt_iff_magnitude hthreshold hsum] at habove
        rw [lt_iff_magnitude hthreshold' hsum]
        rw [le_iff_magnitude hthreshold hthreshold'] at hle
        omega
      rw [if_neg hbelow] at h
      obtain ⟨k', hk', rfl⟩ := Option.map_eq_some_iff.mp h
      obtain ⟨k, hk, hfirst⟩ := ih hrest hsum hk'
      refine ⟨k + 1, Nat.succ_le_succ hk, ?_⟩
      rw [if_neg habove, hfirst]
      rfl

/-- Numbers below one are finite. -/
theorem isFinite_of_lt_one (hu : 0 ≤ u) (h : u < 1) : u.isFinite = true := by
  have hone : magnitude 1 < infinityBits := by decide
  rw [isFinite_eq, decide_eq_true_eq]
  exact ((lt_iff_magnitude hu (by decide)).mp h).trans hone

/-- **A greater number chooses no earlier place.** -/
theorem chooseWeighted_mono (hweights : ∀ w ∈ weights, 0 ≤ w)
    (hfinite : (totalWeight weights).isFinite = true) (hu : 0 ≤ u) (hu' : 0 ≤ u') (hle : u ≤ u')
    (hone : u' < 1) (h : chooseWeighted weights u = some i)
    (h' : chooseWeighted weights u' = some i') : i ≤ i' := by
  obtain ⟨w, hw, hpos⟩ := exists_of_chooseWeighted hweights hu h
  rw [chooseWeighted] at h h'
  split at h
  · rename_i htotal
    rw [if_pos htotal] at h'
    obtain ⟨hthreshold, hthreshold', hmul⟩ := mul_le_mul hu hu' hle (isFinite_of_lt_one hu' hone)
      (Binary32.le_of_lt htotal) hfinite
    rcases Option.or_eq_some_iff.mp h' with hfirst' | ⟨-, hlast'⟩
    · obtain ⟨k, hk, hfirst⟩ := exists_firstAbove_le hweights (by decide) hthreshold hthreshold'
        hmul hfirst'
      rw [hfirst, Option.some_or] at h
      cases h
      exact hk
    · -- What is chosen has a positive weight, and so is not behind the last that has one.
      by_contra hbehind
      exact not_pos_of_lastPositive hlast' i w (Nat.not_le.mp hbehind) hw hpos
  · cases h

/-! ### Zeros -/

/-- The positive weights. -/
def positives (weights : List Float32) : List Float32 := weights.filter fun w => 0 < w

theorem positives_cons_of_pos (h : 0 < w) (weights : List Float32) :
    positives (w :: weights) = w :: positives weights :=
  List.filter_cons_of_pos (decide_eq_true h)

theorem positives_cons_of_not_pos (h : ¬ 0 < w) (weights : List Float32) :
    positives (w :: weights) = positives weights :=
  List.filter_cons_of_neg (ne_true_of_eq_false (decide_eq_false h))

/-- The number of positive weights in front of a place. -/
def rank (weights : List Float32) (i : Nat) : Nat := (positives (weights.take i)).length

theorem rank_cons_of_pos (h : 0 < w) (weights : List Float32) (i : Nat) :
    rank (w :: weights) (i + 1) = rank weights i + 1 := by
  rw [rank, List.take_succ_cons, positives_cons_of_pos h, List.length_cons]
  rfl

theorem rank_cons_of_not_pos (h : ¬ 0 < w) (weights : List Float32) (i : Nat) :
    rank (w :: weights) (i + 1) = rank weights i := by
  rw [rank, List.take_succ_cons, positives_cons_of_not_pos h]
  rfl

theorem not_pos_of_isZero (h : IsZero v) : ¬ 0 < v := by
  obtain ⟨s, hs⟩ := h
  rw [positive_iff, hs]
  nofun

/-- Two numbers are the same, up to the sign of a zero. -/
def Agree (v w : Float32) : Prop := v = w ∨ IsZero v ∧ IsZero w

namespace Agree

theorem eq_of_pos (h : Agree v w) (hpos : 0 < v ∨ 0 < w) : v = w := by
  rcases h with heq | ⟨hv, hw⟩
  · exact heq
  · exact absurd hpos (not_or.mpr ⟨not_pos_of_isZero hv, not_pos_of_isZero hw⟩)

/-- A positive weight leaves no difference between the sums. -/
theorem add_eq (h : Agree before before') (hw : 0 < w) : before + w = before' + w := by
  rcases h with rfl | ⟨hzero, hzero'⟩
  · rfl
  · rw [add_eq_of_isZero hzero hw, add_eq_of_isZero hzero' hw]

theorem add_isZero (h : Agree before before') (hbefore' : 0 ≤ before') (hw : IsZero w) :
    Agree before (before' + w) := by
  by_cases hpos : 0 < before'
  · rwa [add_eq_of_isZero_right hpos hw]
  · have hzero' := isZero_of_le hbefore' hpos
    rcases h with rfl | ⟨hzero, -⟩
    · exact .inr ⟨hzero', isZero_add hzero' hw⟩
    · exact .inr ⟨hzero, isZero_add hzero' hw⟩

end Agree

/-- The sums of the positive weights and of all weights agree. -/
theorem agree_foldl (hweights : ∀ w ∈ weights, 0 ≤ w) (hbefore' : 0 ≤ before')
    (h : Agree before before') :
    Agree ((positives weights).foldl (· + ·) before) (weights.foldl (· + ·) before') := by
  induction weights generalizing before before' with
  | nil => exact h
  | cons weight weights ih =>
    obtain ⟨hweight, hrest⟩ := List.forall_mem_cons.mp hweights
    rw [List.foldl_cons]
    by_cases hpos : 0 < weight
    · rw [positives_cons_of_pos hpos, List.foldl_cons, h.add_eq hpos]
      exact ih hrest (add_nonneg hbefore' hweight) (.inl rfl)
    · rw [positives_cons_of_not_pos hpos]
      exact ih hrest (add_nonneg hbefore' hweight)
        (h.add_isZero hbefore' (isZero_of_le hweight hpos))

theorem firstAbove_positives (hweights : ∀ w ∈ weights, 0 ≤ w) (hbefore' : 0 ≤ before')
    (h : Agree before before') (hbelow : ¬ threshold < before') :
    firstAbove threshold before (positives weights) =
      (firstAbove threshold before' weights).map (rank weights) := by
  induction weights generalizing before before' with
  | nil => rfl
  | cons weight weights ih =>
    obtain ⟨hweight, hrest⟩ := List.forall_mem_cons.mp hweights
    have hsum := add_nonneg hbefore' hweight
    conv_rhs => rw [firstAbove]
    by_cases hpos : 0 < weight
    · rw [positives_cons_of_pos hpos, firstAbove, h.add_eq hpos]
      by_cases habove : threshold < before' + weight
      · rw [if_pos habove, if_pos habove]
        rfl
      · rw [if_neg habove, if_neg habove, ih hrest hsum (.inl rfl) habove, Option.map_map,
          Option.map_map]
        exact Option.map_congr fun i _ => (rank_cons_of_pos hpos weights i).symm
    · -- A zero raises no sum, so its own place is not chosen.
      have hzero := isZero_of_le hweight hpos
      have hbelow' : ¬ threshold < before' + weight := mt (lt_add_of_isZero hzero).mp hbelow
      rw [positives_cons_of_not_pos hpos, if_neg hbelow',
        ih hrest hsum (h.add_isZero hbefore' hzero) hbelow', Option.map_map]
      exact Option.map_congr fun i _ => (rank_cons_of_not_pos hpos weights i).symm

theorem lastPositive_positives (weights : List Float32) :
    lastPositive (positives weights) = (lastPositive weights).map (rank weights) := by
  induction weights with
  | nil => rfl
  | cons weight weights ih =>
    by_cases hpos : 0 < weight
    · rw [positives_cons_of_pos hpos, lastPositive, lastPositive, ih]
      cases lastPositive weights with
      | none =>
        simp only [Option.map_none, if_pos hpos]
        rfl
      | some i => exact congrArg some (rank_cons_of_pos hpos weights i).symm
    · rw [positives_cons_of_not_pos hpos, lastPositive, ih]
      cases lastPositive weights with
      | none => simp only [Option.map_none, if_neg hpos]
      | some i => exact congrArg some (rank_cons_of_not_pos hpos weights i).symm

/-- **What is chosen among the positive weights is what is chosen among all.** -/
theorem chooseWeighted_positives (hweights : ∀ w ∈ weights, 0 ≤ w) (hu : 0 ≤ u) :
    chooseWeighted (positives weights) u = (chooseWeighted weights u).map (rank weights) := by
  have hagree : Agree (totalWeight (positives weights)) (totalWeight weights) :=
    agree_foldl hweights (by decide) (.inl rfl)
  rw [chooseWeighted, chooseWeighted]
  by_cases htotal : 0 < totalWeight weights
  · rw [hagree.eq_of_pos (.inr htotal), if_pos htotal, if_pos htotal, Option.map_or,
      lastPositive_positives, firstAbove_positives hweights (by decide) (.inl rfl)
        (not_mul_lt_zero hu (Binary32.le_of_lt htotal))]
  · have htotal' : ¬ 0 < totalWeight (positives weights) := fun hpos =>
      htotal (hagree.eq_of_pos (.inl hpos) ▸ hpos)
    rw [if_neg htotal, if_neg htotal']
    rfl

/-! ### Choice by weight -/

/-- **Choice by weight.**  If no weight is negative and the total is positive and finite, then a
number from zero to below one chooses a place of positive weight: the first whose cumulative weight
is above its part of the total, or the last of positive weight if none is; and a greater number
chooses no earlier place.  Two lists with the same positive weights, whatever zeros stand between
them, have the same of these chosen.  From zeros nothing is chosen. -/
theorem chooseWeighted_spec (hweights : ∀ w ∈ weights, 0 ≤ w) :
    (0 < totalWeight weights → (totalWeight weights).isFinite = true →
      (∀ u, 0 ≤ u → u < 1 → ∃ i w, chooseWeighted weights u = some i ∧ weights[i]? = some w ∧
        0 < w ∧ Chosen weights (u * totalWeight weights) i) ∧
      ∀ u u' i i', 0 ≤ u → 0 ≤ u' → u ≤ u' → u' < 1 → chooseWeighted weights u = some i →
        chooseWeighted weights u' = some i' → i ≤ i') ∧
    (∀ weights' u, (∀ w ∈ weights', 0 ≤ w) → positives weights' = positives weights → 0 ≤ u →
      (chooseWeighted weights' u).map (rank weights') =
        (chooseWeighted weights u).map (rank weights)) ∧
    ((∀ w ∈ weights, ¬ 0 < w) → ∀ u, chooseWeighted weights u = none) := by
  refine ⟨fun htotal hfinite => ⟨fun u hu _ => ?_, fun u u' i i' hu hu' hle hone h h' => ?_⟩,
    fun weights' u hweights' hsame hu => ?_, fun hzeros u => ?_⟩
  · obtain ⟨i, hi⟩ := (exists_chooseWeighted_iff hweights u).mpr
      ((totalWeight_pos_iff hweights).mp htotal)
    obtain ⟨w, hw, hpos⟩ := exists_of_chooseWeighted hweights hu hi
    exact ⟨i, w, hi, hw, hpos, chosen_of_chooseWeighted hi⟩
  · exact chooseWeighted_mono hweights hfinite hu hu' hle hone h h'
  · rw [← chooseWeighted_positives hweights hu, ← chooseWeighted_positives hweights' hu, hsame]
  · rw [Option.eq_none_iff_forall_ne_some]
    intro i hi
    obtain ⟨w, hw, hpos⟩ := (exists_chooseWeighted_iff hweights u).mp ⟨i, hi⟩
    exact hzeros w hw hpos

/-- Between weights of one and three, zeros are not chosen: a number below a quarter chooses the
one, and a quarter itself the three. -/
theorem chooseWeighted_spec_one_three :
    (∃ (i : Nat) (w : Float32), chooseWeighted [0, 1, 0, 3] 0.25 = some i ∧
      [0, 1, 0, 3][i]? = some w ∧ 0 < w ∧
      Chosen [0, 1, 0, 3] (0.25 * totalWeight [0, 1, 0, 3]) i) ∧
    (chooseWeighted [0, 1, 0, 3] 0.125 = some 1 ∧ chooseWeighted [0, 1, 0, 3] 0.25 = some 3 ∧
      1 ≤ 3) ∧
    (chooseWeighted [1, 3] 0.25).map (rank [1, 3]) = some 1 ∧
    chooseWeighted [0, 0] 0.25 = none := by
  have hlow : chooseWeighted [0, 1, 0, 3] 0.125 = some 1 := by decide
  have hhigh : chooseWeighted [0, 1, 0, 3] 0.25 = some 3 := by decide
  have hweights : ∀ w ∈ ([0, 1, 0, 3] : List Float32), 0 ≤ w := by decide
  have hzeros : ∀ w ∈ ([0, 0] : List Float32), 0 ≤ w := by decide
  obtain ⟨hchosen, hsame, -⟩ := chooseWeighted_spec hweights
  obtain ⟨hplace, hmono⟩ := hchosen (by decide) (by decide)
  refine ⟨hplace 0.25 (by decide) (by decide), ⟨hlow, hhigh, ?_⟩, ?_, ?_⟩
  · exact hmono 0.125 0.25 1 3 (by decide) (by decide) (by decide)
      (by decide) hlow hhigh
  · rw [hsame [1, 3] 0.25 (by decide) (by decide) (by decide), hhigh]
    decide
  · exact (chooseWeighted_spec hzeros).2.2 (by decide) _

end GrammarArt
