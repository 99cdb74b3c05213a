import GrammarArt.Proofs.Text.Plain
import Mathlib.Data.List.Forall2
import Mathlib.Data.List.TakeWhile

/-! # Words with blank characters around them

A text consists of words in a row, with any number of blank characters before, between and
behind them (`Spaced`).  Cutting such a text at a word that is a separator cuts the row of
words (`spaced_separator_iff`, `spaced_intercalate_iff`), and trimming it leaves the words as
they are, if these have no blank characters themselves (`spaced_trim_iff`).  Whether a text
consists of given words is decided by trying every gap (`isSpaced_iff`).
-/
namespace GrammarArt.Text

/-- Words in a row, with characters of a class before, between and behind them. -/
inductive Spaced (blank : Char → Bool) : List (List Char) → List Char → Prop where
  | stop {gap : List Char} (hgap : ∀ c ∈ gap, blank c = true) : Spaced blank [] gap
  | word {gap : List Char} (hgap : ∀ c ∈ gap, blank c = true) (w : List Char)
    {ws : List (List Char)} {cs : List Char} (tail : Spaced blank ws cs) :
    Spaced blank (w :: ws) (gap ++ (w ++ cs))

/-- Whether a text is blank up to a word, and passes a test from the end of the word on. -/
def finds (blank : Char → Bool) (w : List Char) (test : List Char → Bool) : List Char → Bool
  | [] => w.isEmpty && test []
  | c :: cs =>
    (w.isPrefixOf (c :: cs) && test ((c :: cs).drop w.length)) || (blank c && finds blank w test cs)

/-- Whether a text consists of words in a row. -/
def isSpaced (blank : Char → Bool) : List (List Char) → List Char → Bool
  | [], cs => cs.all blank
  | w :: ws, cs => finds blank w (isSpaced blank ws) cs

/-- A word without blank characters. -/
structure Solid (w : List Char) : Prop where
  ne_nil : w ≠ []
  not_blank : ∀ c ∈ w, isBlank c = false

theorem solid_singleton {c : Char} (h : isBlank c = false) : Solid [c] :=
  ⟨List.cons_ne_nil c [], List.forall_mem_singleton.mpr h⟩

variable {blank : Char → Bool} {w : List Char} {ws vs : List (List Char)} {gap cs ds : List Char}

theorem Spaced.mono {blank' : Char → Bool} (hblank : ∀ c, blank c = true → blank' c = true)
    (h : Spaced blank ws cs) : Spaced blank' ws cs := by
  induction h with
  | stop hgap => exact .stop fun c hc => hblank c (hgap c hc)
  | word hgap w _ ih => exact .word (fun c hc => hblank c (hgap c hc)) w ih

theorem finds_iff {test : List Char → Bool} :
    finds blank w test cs = true ↔
      ∃ gap rest, cs = gap ++ (w ++ rest) ∧ (∀ c ∈ gap, blank c = true) ∧ test rest = true := by
  induction cs with
  | nil =>
    rw [finds, Bool.and_eq_true, List.isEmpty_iff]
    constructor
    · rintro ⟨rfl, htest⟩
      exact ⟨[], [], rfl, nofun, htest⟩
    · rintro ⟨gap, rest, heq, -, htest⟩
      obtain ⟨-, hrest⟩ := List.append_eq_nil_iff.mp heq.symm
      obtain ⟨rfl, rfl⟩ := List.append_eq_nil_iff.mp hrest
      exact ⟨rfl, htest⟩
  | cons c cs ih =>
    rw [finds, Bool.or_eq_true, Bool.and_eq_true, Bool.and_eq_true, List.isPrefixOf_iff_prefix, ih]
    constructor
    · rintro (⟨⟨rest, hrest⟩, htest⟩ | ⟨hc, gap, rest, rfl, hgap, htest⟩)
      · rw [← hrest, List.drop_left] at htest
        exact ⟨[], rest, hrest.symm, nofun, htest⟩
      · exact ⟨c :: gap, rest, rfl, List.forall_mem_cons.mpr ⟨hc, hgap⟩, htest⟩
    · rintro ⟨gap, rest, heq, hgap, htest⟩
      -- The first character belongs to the word if there is no gap, and to the gap otherwise.
      cases gap with
      | nil =>
        refine .inl ⟨⟨rest, heq.symm⟩, ?_⟩
        rwa [heq, List.nil_append, List.drop_left]
      | cons d gap =>
        obtain ⟨rfl, rfl⟩ := List.cons.inj heq
        obtain ⟨hc, hgap⟩ := List.forall_mem_cons.mp hgap
        exact .inr ⟨hc, gap, rest, rfl, hgap, htest⟩

theorem isSpaced_iff : isSpaced blank ws cs = true ↔ Spaced blank ws cs := by
  induction ws generalizing cs with
  | nil =>
    rw [isSpaced, List.all_eq_true]
    constructor
    · exact .stop
    · rintro (hgap | _)
      exact hgap
  | cons w ws ih =>
    rw [isSpaced, finds_iff]
    constructor
    · rintro ⟨gap, rest, rfl, hgap, hrest⟩
      exact .word hgap w (ih.mp hrest)
    · rintro (_ | ⟨hgap, _, tail⟩)
      exact ⟨_, _, rfl, hgap, ih.mpr tail⟩

instance : Decidable (Spaced blank ws cs) := decidable_of_iff _ isSpaced_iff

/-! ### Rows of words -/

theorem Spaced.nil : Spaced blank [] [] := .stop (List.forall_mem_nil _)

theorem Spaced.cons (w : List Char) (tail : Spaced blank ws cs) :
    Spaced blank (w :: ws) (w ++ cs) :=
  .word (List.forall_mem_nil _) w tail

theorem spaced_singleton : Spaced blank [w] w := by
  have h : Spaced blank [w] (w ++ []) := Spaced.nil.cons w
  rwa [List.append_nil] at h

theorem Spaced.widen (hgap : ∀ c ∈ gap, blank c = true) (h : Spaced blank ws cs) :
    Spaced blank ws (gap ++ cs) := by
  cases h with
  | stop hstop => exact .stop (List.forall_mem_append.mpr ⟨hgap, hstop⟩)
  | word hfirst w tail =>
    rw [← List.append_assoc]
    exact .word (List.forall_mem_append.mpr ⟨hgap, hfirst⟩) w tail

theorem Spaced.append (h : Spaced blank ws cs) (h' : Spaced blank vs ds) :
    Spaced blank (ws ++ vs) (cs ++ ds) := by
  induction h with
  | stop hgap => exact h'.widen hgap
  | word hgap w tail ih =>
    rw [List.append_assoc, List.append_assoc]
    exact .word hgap w ih

theorem Spaced.exists_append (h : Spaced blank (ws ++ vs) cs) :
    ∃ l r, cs = l ++ r ∧ Spaced blank ws l ∧ Spaced blank vs r := by
  induction ws generalizing cs with
  | nil => exact ⟨[], cs, rfl, .nil, h⟩
  | cons w ws ih =>
    cases h with
    | word hgap _ tail =>
      obtain ⟨l, r, rfl, hl, hr⟩ := ih tail
      refine ⟨_, r, ?_, .word hgap w hl, hr⟩
      simp only [List.append_assoc]

/-- **A row of words is cut at a word where its text is.** -/
theorem spaced_word_iff :
    Spaced blank (ws ++ w :: vs) cs ↔
      ∃ l r, cs = l ++ (w ++ r) ∧ Spaced blank ws l ∧ Spaced blank vs r := by
  constructor
  · intro h
    obtain ⟨l, r, rfl, hl, hr⟩ := h.exists_append
    cases hr with
    | @word gap hgap _ _ r tail =>
      -- The blank characters in front of the word belong to the words before it.
      refine ⟨l ++ gap, r, (List.append_assoc l gap (w ++ r)).symm, ?_, tail⟩
      simpa using hl.append (.stop hgap)
  · rintro ⟨l, r, rfl, hl, hr⟩
    exact hl.append (hr.cons w)

theorem spaced_separator_iff {sep : Char} :
    Spaced blank (ws ++ [sep] :: vs) cs ↔
      ∃ l r, cs = l ++ sep :: r ∧ Spaced blank ws l ∧ Spaced blank vs r := spaced_word_iff

theorem spaced_second_iff {v : List Char} :
    Spaced blank (v :: w :: vs) cs ↔
      ∃ l r, cs = l ++ (w ++ r) ∧ Spaced blank [v] l ∧ Spaced blank vs r := by
  rw [← List.singleton_append, spaced_word_iff]

theorem spaced_second_separator_iff {v : List Char} {sep : Char} :
    Spaced blank (v :: [sep] :: vs) cs ↔
      ∃ l r, cs = l ++ sep :: r ∧ Spaced blank [v] l ∧ Spaced blank vs r := spaced_second_iff

/-- A row of words with separators is a text with separators. -/
theorem spaced_intercalate_iff {sep : Char} {wss : List (List (List Char))} (hne : wss ≠ []) :
    Spaced blank (List.intercalate [[sep]] wss) cs ↔
      ∃ pieces, List.Forall₂ (Spaced blank) wss pieces ∧ cs = List.intercalate [sep] pieces := by
  induction wss generalizing cs with
  | nil => exact absurd rfl hne
  | cons ws wss ih =>
    cases wss with
    | nil =>
      rw [List.intercalate_singleton]
      constructor
      · intro h
        exact ⟨[cs], .cons h .nil, List.intercalate_singleton.symm⟩
      · rintro ⟨pieces, hpieces, rfl⟩
        cases hpieces with
        | cons h hnil =>
          cases hnil
          rwa [List.intercalate_singleton]
    | cons ws' wss =>
      rw [List.intercalate_cons_cons, List.append_assoc, List.singleton_append,
        spaced_separator_iff]
      constructor
      · rintro ⟨l, r, rfl, hl, hr⟩
        obtain ⟨pieces, hpieces, rfl⟩ := (ih (List.cons_ne_nil _ _)).mp hr
        refine ⟨l :: pieces, .cons hl hpieces, ?_⟩
        cases hpieces with
        | cons _ _ => simp [List.intercalate_cons_cons]
      · rintro ⟨pieces, hpieces, rfl⟩
        cases hpieces with
        | @cons _ l _ pieces hl hrest =>
          refine ⟨l, List.intercalate [sep] pieces, ?_, hl,
            (ih (List.cons_ne_nil _ _)).mpr ⟨pieces, hrest, rfl⟩⟩
          cases hrest with
          | cons _ _ => simp [List.intercalate_cons_cons]

/-- Rows of words, put together with a separator that has blank characters around it. -/
theorem Spaced.intercalate {sep : Char} {before behind : List Char}
    {wss : List (List (List Char))} {pieces : List (List Char)}
    (hbefore : ∀ c ∈ before, blank c = true) (hbehind : ∀ c ∈ behind, blank c = true)
    (h : List.Forall₂ (Spaced blank) wss pieces) :
    Spaced blank (List.intercalate [[sep]] wss)
      (List.intercalate (before ++ sep :: behind) pieces) := by
  induction h with
  | nil => exact .nil
  | @cons ws piece wss pieces hpiece hrest ih =>
    cases hrest with
    | nil => rwa [List.intercalate_singleton, List.intercalate_singleton]
    | cons _ _ =>
      rw [List.intercalate_cons_cons, List.intercalate_cons_cons, List.append_assoc,
        List.append_assoc, List.append_assoc, List.singleton_append]
      exact hpiece.append (.word hbefore [sep] (ih.widen hbehind))

theorem Spaced.not_mem {c : Char} (h : Spaced blank ws cs) (hc : blank c = false)
    (hws : ∀ w ∈ ws, c ∉ w) : c ∉ cs := by
  induction h with
  | stop hgap =>
    intro hmem
    rw [hgap c hmem] at hc
    cases hc
  | word hgap w tail ih =>
    obtain ⟨hw, hws⟩ := List.forall_mem_cons.mp hws
    simp only [List.mem_append, not_or]
    refine ⟨fun hmem => ?_, hw, ih hws⟩
    rw [hgap c hmem] at hc
    cases hc

/-! ### Trimming -/

theorem Spaced.reverse (h : Spaced blank ws cs) :
    Spaced blank (ws.map List.reverse).reverse cs.reverse := by
  induction h with
  | stop hgap => exact .stop (by simpa using hgap)
  | word hgap w tail ih =>
    rename_i gap ws cs
    have hbehind : Spaced blank [] gap.reverse := .stop (by simpa using hgap)
    have hlast := Spaced.append (spaced_singleton (w := w.reverse)) hbehind
    simpa using ih.append hlast

theorem Solid.reverse (h : Solid w) : Solid w.reverse :=
  ⟨List.reverse_ne_nil_iff.mpr h.ne_nil, fun c hc => h.not_blank c (List.mem_reverse.mp hc)⟩

theorem Solid.dropWhile_append (h : Solid w) (cs : List Char) :
    (w ++ cs).dropWhile isBlank = w ++ cs := by
  refine dropWhile_isBlank fun c hc => ?_
  rw [List.head?_append_of_ne_nil _ h.ne_nil] at hc
  exact h.not_blank c (List.mem_of_mem_head? hc)

theorem Spaced.dropWhile (h : Spaced isBlank ws cs) (hws : ∀ w ∈ ws, Solid w) :
    Spaced isBlank ws (cs.dropWhile isBlank) := by
  cases h with
  | stop hgap => exact .stop fun c hc => hgap c ((List.dropWhile_sublist _).subset hc)
  | word hgap w tail =>
    obtain ⟨hsolid, -⟩ := List.forall_mem_cons.mp hws
    rw [List.dropWhile_append_of_pos hgap, hsolid.dropWhile_append]
    exact tail.cons w

theorem Spaced.trimEnd (h : Spaced isBlank ws cs) (hws : ∀ w ∈ ws, Solid w) :
    Spaced isBlank ws (trimEnd cs) := by
  have hreverse : ∀ w ∈ (ws.map List.reverse).reverse, Solid w := by
    intro w hw
    obtain ⟨v, hv, rfl⟩ := List.mem_map.mp (List.mem_reverse.mp hw)
    exact (hws v hv).reverse
  have hdrop := (h.reverse.dropWhile hreverse).reverse
  simpa [Text.trimEnd, Function.comp_def] using hdrop

/-- Trimming takes blank characters off. -/
theorem exists_trimEnd (cs : List Char) :
    ∃ gap, (∀ c ∈ gap, isBlank c = true) ∧ cs = trimEnd cs ++ gap := by
  refine ⟨(cs.reverse.takeWhile isBlank).reverse, ?_, ?_⟩
  · intro c hc
    exact List.mem_takeWhile_imp (List.mem_reverse.mp hc)
  · rw [trimEnd, ← List.reverse_append, List.takeWhile_append_dropWhile, List.reverse_reverse]

theorem Spaced.of_trim (h : Spaced isBlank ws (trim cs)) : Spaced isBlank ws cs := by
  obtain ⟨gap, hgap, heq⟩ := exists_trimEnd (cs.dropWhile isBlank)
  rw [← List.takeWhile_append_dropWhile (p := isBlank) (l := cs), heq]
  refine Spaced.widen (fun c => List.mem_takeWhile_imp) ?_
  rw [← List.append_nil ws]
  exact h.append (.stop hgap)

/-- **Trimming leaves a row of words as it is.** -/
theorem spaced_trim_iff (hws : ∀ w ∈ ws, Solid w) :
    Spaced isBlank ws (trim cs) ↔ Spaced isBlank ws cs :=
  ⟨Spaced.of_trim, fun h => (h.dropWhile hws).trimEnd hws⟩

/-- A text of one word is trimmed to this word. -/
theorem Spaced.trim_eq (h : Spaced isBlank [w] cs) (hw : Solid w) : trim cs = w := by
  cases h with
  | word hgap _ tail =>
    cases tail with
    | @stop last hlast =>
      have hend := hw.reverse.dropWhile_append []
      rw [List.append_nil] at hend
      rw [trim, List.dropWhile_append_of_pos hgap, hw.dropWhile_append, Text.trimEnd,
        List.reverse_append, List.dropWhile_append_of_pos (by simpa using hlast), hend,
        List.reverse_reverse]

theorem spaced_trim (cs : List Char) : Spaced isBlank [trim cs] cs :=
  Spaced.of_trim spaced_singleton

/-- What is left of a text that ends in a sign and blank characters. -/
theorem trimEnd_append {sign : Char} (hsign : isBlank sign = false)
    (hgap : ∀ c ∈ gap, isBlank c = true) : trimEnd (cs ++ sign :: gap) = cs ++ [sign] := by
  have hhead : ∀ c ∈ (sign :: cs.reverse).head?, isBlank c = false := by
    rintro c ⟨rfl⟩
    exact hsign
  rw [trimEnd, List.reverse_append, List.reverse_cons, List.append_assoc,
    List.dropWhile_append_of_pos (by simpa using hgap), List.singleton_append,
    dropWhile_isBlank hhead, List.reverse_cons, List.reverse_reverse]

theorem Spaced.trim_ne_nil (h : Spaced isBlank ws cs) (hws : ∀ w ∈ ws, Solid w)
    (hne : ws ≠ []) : trim cs ≠ [] := by
  intro hnil
  have htrim := (spaced_trim_iff hws).mpr h
  rw [hnil] at htrim
  generalize hcs : ([] : List Char) = cs' at htrim
  cases htrim with
  | stop _ => exact hne rfl
  | word _ w _ =>
    have hw := (hws w List.mem_cons_self).ne_nil
    simp [hw] at hcs

/-- A trimmed row of words begins as its first word. -/
theorem Spaced.head?_trim (h : Spaced isBlank (w :: ws) cs) (hws : ∀ v ∈ w :: ws, Solid v) :
    (trim cs).head? = w.head? := by
  have hne := h.trim_ne_nil hws (List.cons_ne_nil w ws)
  have hw := hws w List.mem_cons_self
  unfold trim at hne ⊢
  cases h with
  | @word gap hgap _ _ rest tail =>
    rw [List.dropWhile_append_of_pos hgap, hw.dropWhile_append] at hne ⊢
    obtain ⟨last, -, hlast⟩ := exists_trimEnd (w ++ rest)
    rw [← List.head?_append_of_ne_nil _ hne, ← hlast, List.head?_append_of_ne_nil _ hw.ne_nil]

end GrammarArt.Text
