import GrammarArt.Choice
import GrammarArt.Proofs.Binary32.Positive

/-! # What is chosen has a positive weight

The place that is found first is where the sum of the weights rises above the threshold, which
a zero does not make it do; that the sum is not above it from the start is the invariant.  If
the search finds no place, one is taken whose weight was tested.

Some place is chosen exactly if some weight is positive (`exists_chooseWeighted_iff`), whatever
the number is that chooses: then the total is positive, and the second search cannot fail.
-/
namespace GrammarArt

open Binary32

variable {weights : List Float32} {i : Nat}

theorem exists_of_firstAbove (hweights : ∀ w ∈ weights, 0 ≤ w) {threshold before : Float32}
    (hbefore : ¬ threshold < before) (h : firstAbove threshold before weights = some i) :
    ∃ w, weights[i]? = some w ∧ 0 < w := by
  induction weights generalizing before i with
  | nil => cases h
  | cons weight weights ih =>
    rw [firstAbove] at h
    split at h
    · rename_i habove
      cases h
      refine ⟨weight, rfl, Decidable.byContradiction fun hzero => ?_⟩
      have hadd := lt_add_of_isZero (t := threshold) (v := before)
        (isZero_of_le (hweights weight List.mem_cons_self) hzero)
      exact hbefore (hadd.mp habove)
    · rename_i hnot
      obtain ⟨j, hj, rfl⟩ := Option.map_eq_some_iff.mp h
      exact ih (fun w hw => hweights w (List.mem_cons_of_mem _ hw)) hnot hj

theorem exists_of_lastPositive (h : lastPositive weights = some i) :
    ∃ w, weights[i]? = some w ∧ 0 < w := by
  induction weights generalizing i with
  | nil => cases h
  | cons weight weights ih =>
    rw [lastPositive] at h
    split at h
    · rename_i j hj
      cases h
      exact ih hj
    · split at h
      · rename_i hpos
        cases h
        exact ⟨weight, rfl, hpos⟩
      · cases h

/-- **Only what has a positive weight is chosen**, if no weight is negative. -/
theorem exists_of_chooseWeighted (hweights : ∀ w ∈ weights, 0 ≤ w) {u : Float32} (hu : 0 ≤ u)
    (h : chooseWeighted weights u = some i) : ∃ w, weights[i]? = some w ∧ 0 < w := by
  rw [chooseWeighted] at h
  split at h
  · rename_i htotal
    rcases Option.or_eq_some_iff.mp h with hfirst | ⟨-, hlast⟩
    · exact exists_of_firstAbove hweights (not_mul_lt_zero hu (Binary32.le_of_lt htotal)) hfirst
    · exact exists_of_lastPositive hlast
  · cases h

/-! ### Whether anything is chosen -/

theorem foldl_add_pos_iff (hweights : ∀ w ∈ weights, 0 ≤ w) {before : Float32}
    (hbefore : 0 ≤ before) :
    0 < weights.foldl (· + ·) before ↔ 0 < before ∨ ∃ w ∈ weights, 0 < w := by
  induction weights generalizing before with
  | nil => simp
  | cons weight weights ih =>
    obtain ⟨hweight, hrest⟩ := List.forall_mem_cons.mp hweights
    rw [List.foldl_cons, ih hrest (add_nonneg hbefore hweight), add_pos_iff hbefore hweight,
      or_assoc, List.exists_mem_cons_iff]

/-- **A total is positive if some weight is.** -/
theorem totalWeight_pos_iff (hweights : ∀ w ∈ weights, 0 ≤ w) :
    0 < totalWeight weights ↔ ∃ w ∈ weights, 0 < w := by
  rw [totalWeight, foldl_add_pos_iff hweights (by decide), or_iff_right (by decide)]

theorem isSome_lastPositive_iff :
    (lastPositive weights).isSome = true ↔ ∃ w ∈ weights, 0 < w := by
  induction weights with
  | nil => simp [lastPositive]
  | cons weight weights ih =>
    rw [List.exists_mem_cons_iff, ← ih, lastPositive]
    cases lastPositive weights with
    | none => by_cases hpos : 0 < weight <;> simp [hpos]
    | some place => simp

theorem lt_length_of_firstAbove {threshold before : Float32}
    (h : firstAbove threshold before weights = some i) : i < weights.length := by
  induction weights generalizing before i with
  | nil => cases h
  | cons weight weights ih =>
    rw [firstAbove] at h
    split at h
    · cases h
      exact Nat.zero_lt_succ _
    · obtain ⟨j, hj, rfl⟩ := Option.map_eq_some_iff.mp h
      exact Nat.succ_lt_succ (ih hj)

/-- What is chosen is a place of the list. -/
theorem lt_length_of_chooseWeighted {u : Float32} (h : chooseWeighted weights u = some i) :
    i < weights.length := by
  rw [chooseWeighted] at h
  split at h
  · rcases Option.or_eq_some_iff.mp h with hfirst | ⟨-, hlast⟩
    · exact lt_length_of_firstAbove hfirst
    · obtain ⟨w, hw, -⟩ := exists_of_lastPositive hlast
      exact (List.getElem?_eq_some_iff.mp hw).1
  · cases h

/-- **Something is chosen if there is a positive weight**, and only then. -/
theorem exists_chooseWeighted_iff (hweights : ∀ w ∈ weights, 0 ≤ w) (u : Float32) :
    (∃ i, chooseWeighted weights u = some i) ↔ ∃ w ∈ weights, 0 < w := by
  rw [← Option.isSome_iff_exists, chooseWeighted]
  by_cases hpos : ∃ w ∈ weights, 0 < w
  · rw [if_pos ((totalWeight_pos_iff hweights).mpr hpos), Option.isSome_or,
      isSome_lastPositive_iff.mpr hpos, Bool.or_true]
    exact iff_of_true rfl hpos
  · rw [if_neg (fun h => hpos ((totalWeight_pos_iff hweights).mp h))]
    exact iff_of_false Bool.false_ne_true hpos

end GrammarArt
