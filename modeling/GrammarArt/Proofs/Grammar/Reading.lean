import GrammarArt.Proofs.Grammar.Wording
import GrammarArt.Proofs.Text.Cutting

/-! # Definitions are read as they are written

Each reader of a part of a definition accepts the texts that stand for such a part, and no
others, and returns what they stand for (`readProduction_eq_ok_iff`, `read_eq_ok_iff`,
`readAll_eq_ok_iff`).  So a text has at most one meaning, and nothing that can be written is
refused.

Each reader cuts its text at a separator and trims what is left.  In one direction the cut
comes first and the words are put together from its parts; in the other one the words tell
where the separators are, and a cut at a sign that no name and no number contains finds them.
-/
namespace GrammarArt

open Text Binary32

namespace Definition

/-! ### Arguments -/

theorem argument?_eq_some_iff {cs : List Char} {a : Argument} :
    argument? cs = some a ↔ a.SpelledBy cs := by
  unfold argument?
  by_cases hname : isName cs = true
  · rw [if_pos hname, Option.some.injEq]
    cases a with
    | symbol name =>
      rw [Argument.symbol.injEq, Argument.SpelledBy, ← String.toList_inj, String.toList_ofList]
      exact ⟨fun h => ⟨h, hname⟩, And.left⟩
    | literal value =>
      -- A name is not the text of a finite number.
      refine ⟨nofun, fun h => ?_⟩
      rw [isName_eq_false (.of_read? h.1 h.2)] at hname
      cases hname
  · rw [if_neg hname]
    cases a with
    | symbol name =>
      refine ⟨fun h => ?_, fun h => absurd h.2 hname⟩
      split at h
      · split at h
        · cases h
        · cases h
      · cases h
    | literal value =>
      rw [Argument.SpelledBy]
      split
      · rename_i v hread
        rw [hread, Option.some.injEq]
        by_cases hv : v.isFinite = true
        · rw [if_pos hv, Option.some.injEq, Argument.literal.injEq]
          exact ⟨fun h => ⟨h, h ▸ hv⟩, And.left⟩
        · rw [if_neg hv]
          exact ⟨nofun, fun ⟨heq, hfinite⟩ => absurd (heq ▸ hfinite) hv⟩
      · rename_i hread
        rw [hread]
        exact ⟨nofun, nofun⟩

theorem weight?_eq_some_iff {cs : List Char} {w : Float32} :
    weight? cs = some w ↔ read? cs = some w ∧ w.isFinite = true ∧ 0 ≤ w := by
  unfold weight?
  split
  · rename_i v hread
    rw [hread, Option.some.injEq]
    by_cases hv : (v.isFinite && decide (0 ≤ v)) = true
    · rw [if_pos hv, Option.some.injEq]
      rw [Bool.and_eq_true, decide_eq_true_eq] at hv
      exact ⟨fun h => ⟨h, h ▸ hv⟩, And.left⟩
    · rw [if_neg hv]
      rw [Bool.and_eq_true, decide_eq_true_eq] at hv
      exact ⟨nofun, fun ⟨heq, hfinite⟩ => absurd (heq ▸ hfinite) hv⟩
  · rename_i hread
    rw [hread]
    exact ⟨nofun, nofun⟩

theorem readArguments_eq_ok_iff {index : Nat} {head : List Char} {pieces : List (List Char)}
    {args : List Argument} : readArguments index head pieces = .ok args ↔
      List.Forall₂ Argument.SpelledBy args (pieces.map trim) := by
  induction pieces generalizing args with
  | nil =>
    rw [readArguments, Except.ok.injEq, List.map_nil, List.forall₂_nil_right_iff]
    exact eq_comm
  | cons piece pieces ih =>
    rw [readArguments, List.map_cons, List.forall₂_cons_right_iff]
    constructor
    · intro h
      split at h
      · cases h
      · rename_i a ha
        split at h
        · cases h
        · rename_i values hvalues
          cases h
          exact ⟨a, values, argument?_eq_some_iff.mp ha, ih.mp hvalues, rfl⟩
    · rintro ⟨a, values, ha, hvalues, rfl⟩
      rw [argument?_eq_some_iff.mpr ha]
      simp only [ih.mpr hvalues]

/-! ### Heads -/

/-- Arguments in parentheses, read from their row of words. -/
theorem spaced_arguments {args : List (List Char)} (hne : args ≠ []) {cs : List Char} :
    Spaced isBlank (List.intercalate [[',']] (args.map fun arg => [arg])) cs ↔
      ∃ pieces, List.Forall₂ (fun arg piece => Spaced isBlank [arg] piece) args pieces ∧
        cs = List.intercalate [','] pieces := by
  rw [spaced_intercalate_iff (by simpa using hne)]
  simp only [List.forall₂_map_left_iff]

/-- What is read as a head has the words of a head. -/
theorem of_readHead {index : Nat} {cs name : List Char} {args : List Argument}
    (h : readHead index (trim cs) = .ok (name, args)) :
    ∃ ws, List.Forall₂ Argument.SpelledBy args ws ∧ Spaced isBlank (headWords name ws) cs := by
  unfold readHead at h
  split at h
  · cases h
    exact ⟨[], .nil, spaced_trim cs⟩
  · rename_i before rest hcut
    split at h
    · rename_i reversed hrest
      simp only at h
      split at h
      · cases h
      · split at h
        · cases h
        · split at h
          · cases h
          · rename_i values hargs
            cases h
            have hspelled := readArguments_eq_ok_iff.mp hargs
            refine ⟨_, hspelled, Spaced.of_trim ?_⟩
            have hpieces : (reversed.reverse.splitOn ',').map trim ≠ [] := by simp
            obtain ⟨gap, hgap, hend⟩ := exists_trimEnd rest
            have hclose := congrArg List.reverse hrest
            rw [List.reverse_reverse, List.reverse_cons] at hclose
            rw [(eq_append_of_cut? hcut).1, headWords, if_neg hpieces, hend, hclose,
              List.append_assoc]
            refine spaced_second_separator_iff.mpr
              ⟨before, _, rfl, spaced_trim before, ?_⟩
            refine spaced_separator_iff.mpr ⟨reversed.reverse, gap, rfl, ?_, .stop hgap⟩
            refine (spaced_arguments hpieces).mpr
              ⟨_, ?_, (List.intercalate_splitOn ',').symm⟩
            rw [List.forall₂_map_left_iff]
            exact List.forall₂_same.mpr fun piece _ => spaced_trim piece
    · cases h

theorem map_trim_eq {ws pieces : List (List Char)}
    (h : List.Forall₂ (fun w piece => Spaced isBlank [w] piece) ws pieces)
    (hws : ∀ w ∈ ws, Plain w) : pieces.map trim = ws := by
  induction h with
  | nil => rfl
  | cons hpiece _ ih =>
    obtain ⟨hw, hws⟩ := List.forall_mem_cons.mp hws
    rw [List.map_cons, hpiece.trim_eq hw.toSolid, ih hws]

/-- Arguments and the commas between them: no parenthesis is among them, and what stands between
two commas is trimmed to an argument. -/
theorem of_spaced_arguments {ws : List (List Char)} {inner : List Char} (hne : ws ≠ [])
    (hws : ∀ w ∈ ws, Plain w)
    (h : Spaced isBlank (List.intercalate [[',']] (ws.map fun arg => [arg])) inner) :
    ¬ ('(' ∈ inner ∨ ')' ∈ inner) ∧ trim inner ≠ [] ∧ (inner.splitOn ',').map trim = ws := by
  have hwords : ∀ w ∈ List.intercalate [[',']] (ws.map fun arg => [arg]),
      Plain w ∨ ∃ c ∈ [','], w = [c] := by
    intro w hw
    rcases mem_arguments hw with rfl | hw
    · exact .inr ⟨',', List.mem_cons_self, rfl⟩
    · exact .inl (hws w hw)
  refine ⟨not_or.mpr ⟨?_, ?_⟩, ?_, ?_⟩
  · exact not_mem_of_spaced h (by decide) (by decide) hwords
  · exact not_mem_of_spaced h (by decide) (by decide) hwords
  · refine h.trim_ne_nil (fun w hw => ?_) ?_
    · rcases mem_arguments hw with rfl | hw
      · exact solid_singleton rfl
      · exact (hws w hw).toSolid
    · cases ws with
      | nil => exact absurd rfl hne
      | cons w ws => cases ws <;> simp [List.intercalate_cons_cons]
  · obtain ⟨pieces, hpieces, rfl⟩ := (spaced_arguments hne).mp h
    have hcomma : ∀ piece ∈ pieces, ',' ∉ piece := by
      intro piece hpiece
      obtain ⟨w, hw, hspaced⟩ := exists_of_mem_right hpieces hpiece
      exact hspaced.not_mem_of_plain (by decide) (hws w hw)
    rw [List.splitOn_intercalate ',' hcomma (ne_nil_of_forall₂ hpieces hne),
      map_trim_eq hpieces hws]

/-- The words of a head are read as the head. -/
theorem readHead_of_spaced {index : Nat} {cs name : List Char} {args : List Argument}
    {ws : List (List Char)} (hname : Plain name) (hargs : List.Forall₂ Argument.SpelledBy args ws)
    (h : Spaced isBlank (headWords name ws) cs) : readHead index (trim cs) = .ok (name, args) := by
  have hplain := plain_of_spelled hargs
  by_cases hnil : ws = []
  · -- A name alone has no parenthesis to be cut at.
    subst hnil
    cases hargs
    have hopen : '(' ∉ name := fun hmem => hname.apart '(' hmem (by decide)
    rw [h.trim_eq hname.toSolid, readHead, cut?_eq_none_iff.mpr hopen]
  · have hsolid : ∀ w ∈ headWords name ws, Solid w := by
      intro w hw
      rcases plain_or_sign_of_mem_headWords hname hplain hw with hplain | ⟨c, hc, rfl⟩
      · exact hplain.toSolid
      · exact solid_of_sign (List.mem_append_left _ (List.mem_append_left _ hc))
    have htrim := (spaced_trim_iff hsolid).mpr h
    rw [headWords, if_neg hnil] at htrim
    obtain ⟨before, rest, heq, hbefore, hrest⟩ := spaced_second_separator_iff.mp htrim
    obtain ⟨inner, gap, rfl, hinner, hgap⟩ := spaced_separator_iff.mp hrest
    have hopen : '(' ∉ before := hbefore.not_mem_of_plain (by decide) hname
    -- The first parenthesis of the text is the one of the head, and the last one closes it.
    obtain ⟨hparens, hsome, hpieces⟩ := of_spaced_arguments hnil hplain hinner
    have hread : readArguments index (before ++ '(' :: (inner ++ ')' :: gap))
        (inner.splitOn ',') = .ok args :=
      readArguments_eq_ok_iff.mpr (hpieces ▸ hargs)
    cases hgap with
    | stop hgap =>
      rw [readHead, heq, cut?_eq_some_iff.mpr ⟨rfl, hopen⟩]
      simp only [trimEnd_append (show isBlank ')' = false from rfl) hgap, List.reverse_append,
        List.reverse_singleton, List.singleton_append, List.reverse_reverse, if_neg hparens,
        if_neg hsome, hread, hbefore.trim_eq hname.toSolid]

/-! ### Productions -/

/-- **A production is read from the texts that stand for it**, whatever its index. -/
theorem readProduction_eq_ok_iff {index : Nat} {cs : List Char} {p : RawProduction} :
    readProduction index cs = .ok p ↔ p.WrittenAs cs := by
  unfold readProduction
  constructor
  · intro h
    split at h
    · cases h
    · rename_i head weight hcut
      split at h
      · cases h
      · rename_i value hweight
        split at h
        · cases h
        · rename_i name args hhead
          split at h
          · rename_i hname
            cases h
            obtain ⟨ws, hargs, hspaced⟩ := of_readHead hhead
            refine ⟨_, ⟨ws, trim weight, rfl, ?_, hargs, weight?_eq_some_iff.mp hweight⟩, ?_⟩
            · rwa [String.toList_ofList]
            · rw [(eq_append_of_cutLast? hcut).1, String.toList_ofList]
              exact spaced_separator_iff.mpr ⟨head, weight, rfl, hspaced, spaced_trim weight⟩
          · cases h
  · rintro ⟨_, ⟨ws, w, rfl, hname, hargs, hweight⟩, hspaced⟩
    have hplain : Plain w := .of_numberText (.of_read? hweight.1 hweight.2.1)
    obtain ⟨head, weight, rfl, hhead, htail⟩ := spaced_separator_iff.mp hspaced
    have hcolon : ':' ∉ weight := htail.not_mem_of_plain (by decide) hplain
    rw [cutLast?_eq_some_iff.mpr ⟨rfl, hcolon⟩]
    simp only [htail.trim_eq hplain.toSolid, weight?_eq_some_iff.mpr hweight,
      readHead_of_spaced (.of_isName hname) hargs hhead, if_pos hname, String.ofList_toList]

theorem readProductions_eq_ok_iff {index : Nat} {pieces : List (List Char)}
    {ps : List RawProduction} :
    readProductions index pieces = .ok ps ↔ List.Forall₂ RawProduction.WrittenAs ps pieces := by
  induction pieces generalizing index ps with
  | nil =>
    rw [readProductions, Except.ok.injEq, List.forall₂_nil_right_iff]
    exact eq_comm
  | cons piece pieces ih =>
    rw [readProductions, List.forall₂_cons_right_iff]
    constructor
    · intro h
      split at h
      · cases h
      · split at h
        · cases h
        · rename_i p hp
          split at h
          · cases h
          · rename_i rest hrest
            cases h
            have hwritten := readProduction_eq_ok_iff.mp hp
            exact ⟨p, rest, hwritten.of_trim, ih.mp hrest, rfl⟩
    · rintro ⟨p, rest, hp, hrest, rfl⟩
      have hread : readProduction index (trim piece) = .ok p := readProduction_eq_ok_iff.mpr hp.trim
      rw [if_neg hp.trim_ne_nil, hread]
      simp only [ih.mpr hrest]

/-! ### Definitions -/

theorem solid_words {symbol : List Char} {ps : List RawProduction} {wss : List (List (List Char))}
    (hname : isName symbol = true) (h : List.Forall₂ RawProduction.SpelledBy ps wss) :
    ∀ w ∈ words symbol wss, Solid w := by
  intro w hw
  rw [words, List.mem_cons, List.mem_cons] at hw
  rcases hw with rfl | rfl | hw
  · exact (Plain.of_isName hname).toSolid
  · exact ⟨List.cons_ne_nil _ _, fun c hc => (solid_of_sign (c := ':') (by decide)).not_blank c
      (by simpa using hc)⟩
  · exact solid_productions h w hw

theorem writes_trim_iff {symbol : String} {ps : List RawProduction} {cs : List Char} :
    Writes symbol ps (trim cs) ↔ Writes symbol ps cs := by
  constructor
  · rintro ⟨hname, hne, wss, hwss, hspaced⟩
    exact ⟨hname, hne, wss, hwss, hspaced.of_trim⟩
  · rintro ⟨hname, hne, wss, hwss, hspaced⟩
    exact ⟨hname, hne, wss, hwss, (spaced_trim_iff (solid_words hname hwss)).mpr hspaced⟩

/-- No double colon begins in a production: its one colon stands before the weight. -/
theorem cutDouble?_production {p : RawProduction} {piece rest : List Char}
    (h : p.WrittenAs piece) (hrest : cutDouble? ':' rest = none) :
    cutDouble? ':' (piece ++ rest) = none := by
  obtain ⟨_, ⟨args, w, rfl, hname, hargs, hweight, hfinite, -⟩, hspaced⟩ := h
  have hplain : Plain w := .of_numberText (.of_read? hweight hfinite)
  obtain ⟨head, weight, rfl, hhead, htail⟩ := spaced_separator_iff.mp hspaced
  have hbefore : ':' ∉ head := not_mem_of_spaced hhead (by decide) (by decide) fun _ =>
    plain_or_sign_of_mem_headWords (.of_isName hname) (plain_of_spelled hargs)
  have hbehind : ':' ∉ weight := htail.not_mem_of_plain (by decide) hplain
  have hnext : (weight ++ rest).head? ≠ some ':' := by
    cases weight with
    | nil => exact absurd rfl (htail.trim_ne_nil (by simpa using hplain.toSolid) (by simp))
    | cons c weight =>
      rintro ⟨rfl⟩
      exact hbehind List.mem_cons_self
  rw [List.append_assoc, cutDouble?_append hbefore, List.cons_append,
    cutDouble?_cons fun _ => hnext, cutDouble?_append hbehind, hrest]
  rfl

theorem cutDouble?_productions {ps : List RawProduction} {pieces : List (List Char)}
    (h : List.Forall₂ RawProduction.WrittenAs ps pieces) :
    cutDouble? ':' (List.intercalate ['|'] pieces) = none := by
  induction h with
  | nil => rfl
  | @cons p piece ps pieces hp hps ih =>
    cases hps with
    | nil =>
      rw [List.intercalate_singleton, ← List.append_nil piece]
      exact cutDouble?_production hp rfl
    | cons _ _ =>
      rw [List.intercalate_cons_cons, List.append_assoc, List.singleton_append]
      refine cutDouble?_production hp ?_
      rw [cutDouble?_cons (fun hbar => absurd hbar (by decide)), ih]
      rfl

theorem forall₂_exists_iff {α β γ : Type} {R : α → β → Prop} {S : β → γ → Prop} {as : List α}
    {cs : List γ} : List.Forall₂ (fun a c => ∃ b, R a b ∧ S b c) as cs ↔
      ∃ bs, List.Forall₂ R as bs ∧ List.Forall₂ S bs cs := by
  constructor
  · intro h
    induction h with
    | nil => exact ⟨[], .nil, .nil⟩
    | cons hac _ ih =>
      obtain ⟨b, hab, hbc⟩ := hac
      obtain ⟨bs, habs, hbcs⟩ := ih
      exact ⟨b :: bs, .cons hab habs, .cons hbc hbcs⟩
  · rintro ⟨bs, habs, hbcs⟩
    induction habs generalizing cs with
    | nil =>
      cases hbcs
      exact .nil
    | cons hab _ ih =>
      cases hbcs with
      | cons hbc hbcs => exact .cons ⟨_, hab, hbc⟩ (ih hbcs)

/-- Productions, read from their row of words. -/
theorem spaced_productions {ps : List RawProduction} {cs : List Char} (hne : ps ≠ []) :
    (∃ wss, List.Forall₂ RawProduction.SpelledBy ps wss ∧
        Spaced isBlank (List.intercalate [['|']] wss) cs) ↔
      ∃ pieces, List.Forall₂ RawProduction.WrittenAs ps pieces ∧
        cs = List.intercalate ['|'] pieces := by
  have hwritten : RawProduction.WrittenAs =
      fun p cs => ∃ ws, p.SpelledBy ws ∧ Spaced isBlank ws cs := rfl
  constructor
  · rintro ⟨wss, hwss, hspaced⟩
    have hspaced := (spaced_intercalate_iff (ne_nil_of_forall₂ hwss hne)).mp hspaced
    obtain ⟨pieces, hpieces, rfl⟩ := hspaced
    exact ⟨pieces, forall₂_exists_iff.mpr ⟨wss, hwss, hpieces⟩, rfl⟩
  · rintro ⟨pieces, hpieces, rfl⟩
    obtain ⟨wss, hwss, hspaced⟩ := forall₂_exists_iff.mp hpieces
    have hne' := ne_nil_of_forall₂ hwss hne
    exact ⟨wss, hwss, (spaced_intercalate_iff hne').mpr ⟨pieces, hspaced, rfl⟩⟩

theorem bar_not_mem_of_writtenAs {p : RawProduction} {piece : List Char} (h : p.WrittenAs piece) :
    '|' ∉ piece := by
  obtain ⟨ws, hws, hspaced⟩ := h
  exact not_mem_of_spaced hspaced (by decide) (by decide) hws.plain_or_sign

/-- Productions are found in their row of words: no double colon is in it, and cutting it at
the bars leaves a text of each. -/
theorem readProductions_of_spaced {ps : List RawProduction} {wss : List (List (List Char))}
    {cs : List Char} (hne : ps ≠ []) (hwss : List.Forall₂ RawProduction.SpelledBy ps wss)
    (h : Spaced isBlank (List.intercalate [['|']] wss) cs) :
    cutDouble? ':' cs = none ∧ trim cs ≠ [] ∧
      readProductions 1 ((trim cs).splitOn '|') = .ok ps := by
  have htrim := (spaced_trim_iff (solid_productions hwss)).mpr h
  obtain ⟨pieces, hpieces, heq⟩ := (spaced_productions hne).mp ⟨wss, hwss, htrim⟩
  have hbars : ∀ piece ∈ pieces, '|' ∉ piece := by
    intro piece hpiece
    obtain ⟨p, -, hp⟩ := exists_of_mem_right hpieces hpiece
    exact bar_not_mem_of_writtenAs hp
  have hread : readProductions 1 ((trim cs).splitOn '|') = .ok ps := by
    rw [heq, List.splitOn_intercalate '|' hbars (ne_nil_of_forall₂ hpieces hne)]
    exact readProductions_eq_ok_iff.mpr hpieces
  refine ⟨?_, ?_, hread⟩
  · obtain ⟨pieces, hpieces, rfl⟩ := (spaced_productions hne).mp ⟨wss, hwss, h⟩
    exact cutDouble?_productions hpieces
  · -- Of nothing, an empty production is read, which is an error.
    intro hnil
    rw [hnil, List.splitOn_nil, readProductions, if_pos (show trim [] = [] from rfl)] at hread
    cases hread

/-- **A definition is read from the texts that stand for it**, and keeps its line. -/
theorem read_eq_ok_iff {line : Nat} {cs : List Char} {d : Definition} :
    read line cs = .ok d ↔ d.line = line ∧ Writes d.symbol d.productions cs := by
  unfold read
  constructor
  · intro h
    split at h
    · cases h
    · rename_i left right hcut
      simp only at h
      split at h
      · cases h
      · split at h
        · cases h
        · rename_i hname
          split at h
          · cases h
          · split at h
            · cases h
            · rename_i ps hps
              cases h
              have hwritten := readProductions_eq_ok_iff.mp hps
              have hne : ps ≠ [] := by
                rintro rfl
                simp at hwritten
              rw [Bool.not_eq_true', Bool.not_eq_false] at hname
              obtain ⟨wss, hwss, hspaced⟩ := (spaced_productions hne).mpr
                ⟨_, hwritten, (List.intercalate_splitOn '|').symm⟩
              refine ⟨rfl, ?_, hne, wss, hwss, ?_⟩
              · rwa [String.toList_ofList]
              · rw [String.toList_ofList, eq_append_of_cutDouble? hcut]
                exact spaced_second_iff.mpr
                  ⟨left, right, rfl, spaced_trim left, hspaced.of_trim⟩
  · rintro ⟨rfl, hname, hne, wss, hwss, hspaced⟩
    have hplain : Plain d.symbol.toList := .of_isName hname
    obtain ⟨left, right, rfl, hleft, hright⟩ :=
      spaced_second_iff.mp hspaced
    have hcut : cutDouble? ':' (left ++ ([':', ':'] ++ right)) = some (left, right) :=
      cutDouble?_eq_some (hleft.not_mem_of_plain (by decide) hplain)
    obtain ⟨hdouble, hsome, hread⟩ := readProductions_of_spaced hne hwss hright
    rw [hcut]
    simp only [hleft.trim_eq hplain.toSolid, hdouble, Option.isSome_none, Bool.false_eq_true,
      if_false, hname, Bool.not_true, hsome, hread, String.ofList_toList]

/-! ### Lines -/

/-- A definition begins with a name, so its line is not passed over. -/
theorem Writes.isSkipped_eq_false {symbol : String} {ps : List RawProduction} {cs : List Char}
    (h : Writes symbol ps cs) : isSkipped cs = false := by
  obtain ⟨hname, -, wss, hwss, hspaced⟩ := h
  have hhead := hspaced.head?_trim (solid_words hname hwss)
  obtain ⟨c, hc, hletter⟩ :
      ∃ c, symbol.toList.head? = some c ∧ Expression.isNameStart c = true := by
    cases hsymbol : symbol.toList with
    | nil =>
      rw [hsymbol] at hname
      cases hname
    | cons c cs =>
      rw [hsymbol, isName, Bool.and_eq_true] at hname
      exact ⟨c, rfl, hname.1⟩
  rw [hc] at hhead
  have hhash : c ≠ '#' := by
    rintro rfl
    revert hletter
    decide
  have hsemicolon : c ≠ ';' := by
    rintro rfl
    revert hletter
    decide
  unfold isSkipped
  split
  · rename_i hnil
    rw [hnil] at hhead
    cases hhead
  · rename_i d line hline
    rw [hline] at hhead
    cases hhead
    rw [decide_eq_false hhash, decide_eq_false hsemicolon, Bool.or_false]

/-- The lines that are not passed over. -/
def defining (sources : List (List Char)) : List (List Char) :=
  sources.filter fun source => !isSkipped source

/-- What a definition says: all of it but its line. -/
def content (d : Definition) : String × List RawProduction := (d.symbol, d.productions)

/-- **The definitions of a text are read from its lines**, one from each that is not passed
over. -/
theorem readAll_eq_ok_iff {line : Nat} {seen : List String} {sources : List (List Char)}
    {contents : List (String × List RawProduction)} :
    (∃ ds, readAll line seen sources = .ok ds ∧ ds.map content = contents) ↔
      List.Forall₂ (fun d source => Writes d.1 d.2 source) contents (defining sources) ∧
        (contents.map Prod.fst).Nodup ∧ ∀ symbol ∈ contents.map Prod.fst, symbol ∉ seen := by
  induction sources generalizing line seen contents with
  | nil =>
    simp only [readAll, defining, List.filter_nil, List.forall₂_nil_right_iff, Except.ok.injEq,
      exists_eq_left', List.map_nil]
    constructor
    · rintro rfl
      exact ⟨rfl, List.nodup_nil, nofun⟩
    · exact fun h => h.1.symm
  | cons source sources ih =>
    by_cases hskipped : isSkipped source = true
    · have hlines : defining (source :: sources) = defining sources := by
        simp [defining, hskipped]
      rw [readAll, if_pos hskipped, hlines]
      exact ih
    · have hlines : defining (source :: sources) = source :: defining sources := by
        simp [defining, hskipped]
      rw [readAll, if_neg hskipped, hlines, List.forall₂_cons_right_iff]
      constructor
      · rintro ⟨ds, h, rfl⟩
        split at h
        · cases h
        · rename_i d hd
          split at h
          · cases h
          · rename_i hfresh
            split at h
            · cases h
            · rename_i rest hrest
              cases h
              obtain ⟨-, hwrites⟩ := read_eq_ok_iff.mp hd
              obtain ⟨hlines, hnodup, hunseen⟩ := ih.mp ⟨rest, hrest, rfl⟩
              refine ⟨⟨_, _, writes_trim_iff.mp hwrites, hlines, rfl⟩, ?_, ?_⟩
              · exact List.nodup_cons.mpr ⟨fun hmem => hunseen _ hmem List.mem_cons_self, hnodup⟩
              · refine List.forall_mem_cons.mpr ⟨hfresh, fun symbol hsymbol hseen => ?_⟩
                exact hunseen symbol hsymbol (List.mem_cons_of_mem _ hseen)
      · rintro ⟨⟨⟨symbol, ps⟩, rest, hwrites, hlines, rfl⟩, hnodup, hunseen⟩
        obtain ⟨hnot, hnodup⟩ := List.nodup_cons.mp hnodup
        obtain ⟨hfresh, hunseen⟩ := List.forall_mem_cons.mp hunseen
        have hread : read line (trim source) = .ok ⟨line, symbol, ps⟩ :=
          read_eq_ok_iff.mpr ⟨rfl, writes_trim_iff.mpr hwrites⟩
        have hrest : ∀ name ∈ rest.map Prod.fst, name ∉ symbol :: seen := by
          rintro name hname (_ | ⟨_, hseen⟩)
          · exact hnot hname
          · exact hunseen name hname hseen
        obtain ⟨ds, hds, rfl⟩ := ih.mpr ⟨hlines, hnodup, hrest⟩
        refine ⟨⟨line, symbol, ps⟩ :: ds, ?_, rfl⟩
        rw [hread]
        dsimp only
        rw [if_neg hfresh, hds]

end Definition

end GrammarArt
