import GrammarArt.Text.Cut

/-! # What a cut gives

A cut at the first or at the last separator gives exactly the two parts around it: the text
is put together again from them, and the part that was searched does not contain the separator
(`cut?_eq_some_iff`, `cutLast?_eq_some_iff`).  A double separator is found behind a text that
does not contain a single one (`cutDouble?_append`), and nowhere if each separator is followed
by something else.
-/
namespace GrammarArt.Text

variable {sep c : Char} {cs l r : List Char}

theorem cut?_eq_some_iff : cut? sep cs = some (l, r) ↔ cs = l ++ sep :: r ∧ sep ∉ l := by
  refine ⟨eq_append_of_cut?, ?_⟩
  rintro ⟨rfl, hl⟩
  induction l with
  | nil => rw [List.nil_append, cut?, if_pos rfl]
  | cons c l ih =>
    rw [List.mem_cons, not_or] at hl
    rw [List.cons_append, cut?, if_neg (Ne.symm hl.1), ih hl.2]
    rfl

theorem cut?_eq_none_iff : cut? sep cs = none ↔ sep ∉ cs := by
  induction cs with
  | nil => simp [cut?]
  | cons c cs ih =>
    by_cases hc : c = sep
    · simp [cut?, hc]
    · simp [cut?, hc, Ne.symm hc, ih]

theorem cutLast?_eq_none_iff : cutLast? sep cs = none ↔ sep ∉ cs := by
  induction cs with
  | nil => simp [cutLast?]
  | cons c cs ih =>
    rw [cutLast?, List.mem_cons, not_or, ← ih, eq_comm (a := sep)]
    cases cutLast? sep cs with
    | none => simp
    | some parts => simp

theorem eq_append_of_cutLast? (h : cutLast? sep cs = some (l, r)) :
    cs = l ++ sep :: r ∧ sep ∉ r := by
  induction cs generalizing l with
  | nil => cases h
  | cons c cs ih =>
    rw [cutLast?] at h
    split at h
    · rename_i hrest
      cases h
      obtain ⟨rfl, hr⟩ := ih hrest
      exact ⟨rfl, hr⟩
    · rename_i hrest
      split at h
      · rename_i hc
        cases h
        rw [cutLast?_eq_none_iff] at hrest
        exact ⟨congrArg (· :: _) hc, hrest⟩
      · cases h

theorem cutLast?_eq_some_iff :
    cutLast? sep cs = some (l, r) ↔ cs = l ++ sep :: r ∧ sep ∉ r := by
  refine ⟨eq_append_of_cutLast?, ?_⟩
  rintro ⟨rfl, hr⟩
  rw [← cutLast?_eq_none_iff] at hr
  induction l with
  | nil => rw [List.nil_append, cutLast?, hr, if_pos rfl]
  | cons c l ih => rw [List.cons_append, cutLast?, ih]

/-! ### Double separators -/

/-- The search goes on behind a character that does not begin a double separator. -/
theorem cutDouble?_cons (h : c = sep → cs.head? ≠ some sep) :
    cutDouble? sep (c :: cs) = (cutDouble? sep cs).map fun (l, r) => (c :: l, r) := by
  cases cs with
  | nil => rfl
  | cons d cs =>
    have hnot : ¬ (c = sep ∧ d = sep) := fun ⟨hc, hd⟩ => h hc (congrArg some hd)
    exact if_neg hnot

theorem cutDouble?_append (hl : sep ∉ l) :
    cutDouble? sep (l ++ r) = (cutDouble? sep r).map fun (l', r') => (l ++ l', r') := by
  induction l with
  | nil => simp
  | cons c l ih =>
    rw [List.mem_cons, not_or] at hl
    rw [List.cons_append, cutDouble?_cons (fun hc => absurd hc.symm hl.1), ih hl.2,
      Option.map_map]
    rfl

theorem cutDouble?_eq_some (hl : sep ∉ l) :
    cutDouble? sep (l ++ sep :: sep :: r) = some (l, r) := by
  have hhere : cutDouble? sep (sep :: sep :: r) = some ([], r) := if_pos ⟨rfl, rfl⟩
  rw [cutDouble?_append hl, hhere]
  exact congrArg (fun l => some (l, r)) (List.append_nil l)

theorem eq_append_of_cutDouble? (h : cutDouble? sep cs = some (l, r)) :
    cs = l ++ sep :: sep :: r := by
  fun_induction cutDouble? sep cs generalizing l with
  | case1 => cases h
  | case2 => cases h
  | case3 c d cs hboth =>
    obtain ⟨rfl, rfl⟩ := hboth
    cases h
    rfl
  | case4 c d cs hnot ih =>
    obtain ⟨⟨l', r'⟩, hrest, heq⟩ := Option.map_eq_some_iff.mp h
    cases heq
    exact congrArg (c :: ·) (ih hrest)

end GrammarArt.Text
