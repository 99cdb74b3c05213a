import GrammarArt.Proofs.Grammar.Resolution

/-! # Layout and order of a grammar text

A grammar text is compiled from the lines that define something (`Grammar.definitionLines`).
What else is in the text, blank lines and comments, only moves these lines, and with them the
line that an error names: no reader looks at the number of a line, each of them only passes it
on (`compileLines_moved`).

Neither does the order of the definitions matter to what they say.  Names are resolved when all
definitions have been read, by whether they are declared and not by where, so the same lines
in another order write the same rules in that order (`exists_compile_of_perm`).
-/
namespace GrammarArt

open Text

/-- The same error, in a text whose lines were moved. -/
def GrammarError.moved (place : Nat → Nat) : GrammarError → GrammarError
  | located line fault => .located (place line) fault
  | empty => .empty

namespace Definition

/-- The same definition, in a text whose lines were moved. -/
def moved (place : Nat → Nat) (d : Definition) : Definition := { d with line := place d.line }

/-- The symbol in front of the separator. -/
def symbolOf (source : List Char) : String :=
  match cutDouble? ':' source with
  | none => ""
  | some (left, _) => String.ofList (trim left)

/-- The definitions in lines with their numbers; none of these lines is passed over. -/
def readLines (seen : List String) :
    List (List Char × Nat) → Except GrammarError (List Definition)
  | [] => .ok []
  | (source, line) :: lines =>
    match read line source with
    | .error e => .error (.located line e)
    | .ok definition =>
      if definition.symbol ∈ seen then .error (.located line (.duplicate definition.symbol))
      else match readLines (definition.symbol :: seen) lines with
        | .error e => .error e
        | .ok definitions => .ok (definition :: definitions)

/-- The lines that are not passed over, trimmed and numbered from the one given. -/
def numbered (line : Nat) (sources : List (List Char)) : List (List Char × Nat) :=
  ((sources.zipIdx line).filter fun (source, _) => !isSkipped source).map
    fun (source, line) => (trim source, line)

variable {place : Nat → Nat} {lines : List (List Char × Nat)} {seen : List String}

/-! ### Lines and their numbers -/

theorem readLines_cons (source : List Char) (line : Nat) :
    readLines seen ((source, line) :: lines) =
      match read line source with
      | .error e => .error (.located line e)
      | .ok d =>
        if d.symbol ∈ seen then .error (.located line (.duplicate d.symbol))
        else match readLines (d.symbol :: seen) lines with
          | .error e => .error e
          | .ok ds => .ok (d :: ds) := rfl

theorem numbered_cons (line : Nat) (source : List Char) (sources : List (List Char)) :
    numbered line (source :: sources) =
      if isSkipped source then numbered (line + 1) sources
      else (trim source, line) :: numbered (line + 1) sources := by
  cases hskipped : isSkipped source <;> simp [numbered, hskipped]

theorem map_fst_numbered (line : Nat) (sources : List (List Char)) :
    (numbered line sources).map Prod.fst = (defining sources).map trim := by
  induction sources generalizing line with
  | nil => rfl
  | cons source sources ih =>
    rw [numbered_cons, defining, List.filter_cons]
    cases isSkipped source with
    | true => exact ih (line + 1)
    | false => exact congrArg (trim source :: ·) (ih (line + 1))

theorem nodup_numbered (line : Nat) (sources : List (List Char)) :
    ((numbered line sources).map Prod.snd).Nodup := by
  have hnumbers : (numbered line sources).map Prod.snd =
      ((sources.zipIdx line).filter fun (source, _) => !isSkipped source).map Prod.snd := by
    rw [numbered, List.map_map]
    rfl
  have hsublist := (List.filter_sublist (p := fun (source, _) => !isSkipped source)
    (l := sources.zipIdx line)).map Prod.snd
  rw [List.zipIdx_map_snd] at hsublist
  rw [hnumbers]
  exact hsublist.nodup List.nodup_range'

/-- Reading all lines is reading those that are not passed over. -/
theorem readAll_eq_readLines (line : Nat) (seen : List String) (sources : List (List Char)) :
    readAll line seen sources = readLines seen (numbered line sources) := by
  induction sources generalizing line seen with
  | nil => rfl
  | cons source sources ih =>
    rw [readAll, numbered_cons]
    split
    · exact ih _ _
    · rw [readLines_cons]
      cases read line (trim source) with
      | error e => rfl
      | ok d =>
        cases hrest : readLines (d.symbol :: seen) (numbered (line + 1) sources) with
        | error e => simp only [ih, hrest]
        | ok ds => simp only [ih, hrest]

/-! ### Moved lines -/

/-- A definition is read in the same way wherever its line stands. -/
theorem read_moved (line : Nat) (source : List Char) :
    read (place line) source = (read line source).map (moved place) := by
  unfold read
  split
  · rfl
  · simp only
    split
    · rfl
    · split
      · rfl
      · split
        · rfl
        · split
          · rfl
          · rfl

theorem readLines_moved :
    readLines seen (lines.map (Prod.map id place)) =
      ((readLines seen lines).map (List.map (moved place))).mapError (.moved place) := by
  induction lines generalizing seen with
  | nil => rfl
  | cons first lines ih =>
    obtain ⟨source, line⟩ := first
    rw [List.map_cons, Prod.map_apply, id_eq, readLines_cons, readLines_cons, read_moved]
    cases read line source with
    | error e => rfl
    | ok d =>
      simp only [Except.map, moved, ih]
      split
      · rfl
      · cases readLines (d.symbol :: seen) lines with
        | error e => rfl
        | ok ds => rfl

/-- Errors of reading name one of the lines. -/
theorem mem_of_readLines_eq_error {line : Nat} {fault : GrammarFault}
    (h : readLines seen lines = .error (.located line fault)) : line ∈ lines.map Prod.snd := by
  induction lines generalizing seen with
  | nil => cases h
  | cons first lines ih =>
    obtain ⟨source, number⟩ := first
    rw [readLines_cons] at h
    split at h
    · cases h
      exact List.mem_cons_self
    · split at h
      · cases h
        exact List.mem_cons_self
      · split at h
        · rename_i hrest
          cases h
          exact List.mem_cons_of_mem _ (ih hrest)
        · cases h

theorem map_line_of_readLines {ds : List Definition} (h : readLines seen lines = .ok ds) :
    ds.map Definition.line = lines.map Prod.snd := by
  induction lines generalizing seen ds with
  | nil =>
    cases h
    rfl
  | cons first lines ih =>
    obtain ⟨source, number⟩ := first
    rw [readLines_cons] at h
    split at h
    · cases h
    · rename_i d hd
      split at h
      · cases h
      · split at h
        · cases h
        · rename_i hrest
          cases h
          rw [List.map_cons, List.map_cons, ih hrest, (read_eq_ok_iff.mp hd).1]

/-- What a line writes is written for the symbol in front of its separator. -/
theorem symbolOf_eq {symbol : String} {ps : List RawProduction} {source : List Char}
    (h : Writes symbol ps source) : symbolOf source = symbol := by
  have hread : read 0 source = .ok ⟨0, symbol, ps⟩ := read_eq_ok_iff.mpr ⟨rfl, h⟩
  unfold read at hread
  cases hcut : cutDouble? ':' source with
  | none =>
    rw [hcut] at hread
    cases hread
  | some parts =>
    obtain ⟨left, right⟩ := parts
    have hsymbol : symbolOf source = String.ofList (trim left) := by rw [symbolOf, hcut]
    rw [hcut] at hread
    simp only at hread
    rw [hsymbol]
    split at hread
    · cases hread
    · split at hread
      · cases hread
      · split at hread
        · cases hread
        · split at hread
          · cases hread
          · cases hread
            rfl

end Definition

/-- The line writes the rule. -/
def Rule.WrittenAs (r : Rule) (line : List Char) : Prop :=
  Definition.Writes r.symbol (r.productions.map Production.raw) line

/-- Only which symbols are declared matters, not where. -/
theorem Rule.Valid.mono {declared declared' : List String} {r : Rule} (h : r.Valid declared)
    (hsame : ∀ symbol ∈ declared, symbol ∈ declared') : r.Valid declared' where
  productions p hp :=
    { counts := (h.productions p hp).counts
      symbols := fun symbol hsymbol => hsame symbol ((h.productions p hp).symbols symbol hsymbol)
      reference := fun symbol htarget =>
        ((h.productions p hp).reference symbol htarget).imp_left (hsame symbol) }
  total_pos := h.total_pos
  total_finite := h.total_finite
  terminal := h.terminal
  name := h.name
  some_production := h.some_production
  numbers := h.numbers

namespace Grammar

open Definition (moved readLines numbered defining)

/-- The lines of a text that define something, trimmed and with their numbers. -/
def definitionLines (text : String) : List (List Char × Nat) :=
  numbered 1 (text.toList.splitOn '\n')

/-- The lines of a text that define something, trimmed. -/
def sources (text : String) : List (List Char) := (definitionLines text).map Prod.fst

/-- The grammar that is defined in lines with their numbers. -/
def compileLines (lines : List (List Char × Nat)) : Except GrammarError Grammar :=
  match readLines [] lines with
  | .error e => .error e
  | .ok definitions => ofDefinitions definitions

variable {place : Nat → Nat} {lines : List (List Char × Nat)} {declared : List String}
  {ds : List Definition} {text text' : String} {g : Grammar}

theorem compile_eq_compileLines (text : String) :
    compile text = compileLines (definitionLines text) := by
  rw [compile, Definition.readAll_eq_readLines]
  rfl

/-! ### Layout -/

theorem resolveRules_moved :
    resolveRules declared (ds.map (moved place)) =
      (resolveRules declared ds).mapError (.moved place) := by
  induction ds with
  | nil => rfl
  | cons d ds ih =>
    have hrule : resolveRule declared (d.moved place) = resolveRule declared d := rfl
    rw [List.map_cons, resolveRules, resolveRules, ih, hrule]
    cases resolveRule declared d with
    | error e => rfl
    | ok rule =>
      cases resolveRules declared ds with
      | error e => rfl
      | ok rules => rfl

theorem ofDefinitions_moved :
    ofDefinitions (ds.map (moved place)) = (ofDefinitions ds).mapError (.moved place) := by
  have hdeclared : (ds.map (moved place)).map Definition.symbol = ds.map Definition.symbol := by
    rw [List.map_map]
    rfl
  rw [ofDefinitions, ofDefinitions, hdeclared, resolveRules_moved]
  cases resolveRules (ds.map Definition.symbol) ds with
  | error e => rfl
  | ok rules =>
    cases rules with
    | nil => rfl
    | cons first others => rfl

/-- **Moving the lines moves the line of the error**, and changes nothing else. -/
theorem compileLines_moved :
    compileLines (lines.map (Prod.map id place)) =
      (compileLines lines).mapError (.moved place) := by
  rw [compileLines, compileLines, Definition.readLines_moved]
  cases readLines [] lines with
  | error e => rfl
  | ok ds => exact ofDefinitions_moved

theorem mem_of_resolveRules_eq_error {line : Nat} {fault : GrammarFault}
    (h : resolveRules declared ds = .error (.located line fault)) :
    line ∈ ds.map Definition.line := by
  induction ds with
  | nil => cases h
  | cons d ds ih =>
    rw [resolveRules] at h
    split at h
    · cases h
      exact List.mem_cons_self
    · split at h
      · rename_i hrest
        cases h
        exact List.mem_cons_of_mem _ (ih hrest)
      · cases h

/-- **An error that names a line names one that defines something.** -/
theorem mem_of_compileLines_eq_error {line : Nat} {fault : GrammarFault}
    (h : compileLines lines = .error (.located line fault)) : line ∈ lines.map Prod.snd := by
  unfold compileLines at h
  split at h
  · rename_i hread
    cases h
    exact Definition.mem_of_readLines_eq_error hread
  · rename_i ds hread
    rw [← Definition.map_line_of_readLines hread]
    unfold ofDefinitions at h
    split at h
    · rename_i hrules
      cases h
      exact mem_of_resolveRules_eq_error hrules
    · cases h
    · cases h

/-- Lines with the same texts stand somewhere else, each of them at one place. -/
theorem exists_place {lines lines' : List (List Char × Nat)}
    (h : lines.map Prod.fst = lines'.map Prod.fst) (hnodup : (lines.map Prod.snd).Nodup) :
    ∃ place : Nat → Nat, lines' = lines.map (Prod.map id place) := by
  induction lines generalizing lines' with
  | nil => exact ⟨id, List.map_eq_nil_iff.mp h.symm⟩
  | cons first lines ih =>
    cases lines' with
    | nil => cases h
    | cons first' lines' =>
      obtain ⟨hfirst, hrest⟩ := List.cons.inj h
      obtain ⟨hnot, hnodup⟩ := List.nodup_cons.mp hnodup
      obtain ⟨place, rfl⟩ := ih hrest hnodup
      refine ⟨Function.update place first.2 first'.2, ?_⟩
      have hsame : ∀ line ∈ lines, Prod.map id (Function.update place first.2 first'.2) line =
          Prod.map id place line := by
        intro line hline
        have hne : line.2 ≠ first.2 := by
          rintro heq
          exact hnot (heq ▸ List.mem_map_of_mem hline)
        rw [Prod.map, Prod.map, Function.update_of_ne hne]
      rw [List.map_cons, List.map_congr_left hsame, Prod.map, Function.update_self]
      exact congrArg (· :: _) (Prod.ext hfirst.symm rfl)

/-! ### Order -/

theorem writtenIn_iff_sources :
    g.WrittenIn text ↔ List.Forall₂ Rule.WrittenAs g.rules (sources text) := by
  rw [sources, definitionLines, Definition.map_fst_numbered, List.forall₂_map_right_iff]
  constructor
  · exact fun h => h.imp fun _ _ => Definition.writes_trim_iff.mpr
  · exact fun h => h.imp fun _ _ => Definition.writes_trim_iff.mp

/-- The symbols of a grammar stand in front of its definitions. -/
theorem symbols_eq_of_writtenIn (h : g.WrittenIn text) :
    g.symbols = (sources text).map Definition.symbolOf := by
  have hsymbols := (writtenIn_iff_sources.mp h).imp fun _ _ hline =>
    (Definition.symbolOf_eq hline).symm
  rwa [← List.forall₂_map_right_iff (f := Definition.symbolOf), ← List.forall₂_map_left_iff
    (f := Rule.symbol), List.forall₂_eq_eq_eq] at hsymbols

theorem Valid.of_perm (hg : g.Valid) {g' : Grammar} (h : g.rules.Perm g'.rules) : g'.Valid where
  distinct := (h.map Rule.symbol).nodup_iff.mp hg.distinct
  rules r hr := (hg.rules r (h.mem_iff.mpr hr)).mono fun _ => (h.map Rule.symbol).mem_iff.mp

/-- In another order, the same productions are found under every symbol. -/
theorem Valid.productions?_eq_of_perm (hg : g.Valid) {g' : Grammar} (h : g.rules.Perm g'.rules)
    (symbol : String) : g'.productions? symbol = g.productions? symbol := by
  have hsymbols : g.symbols.Perm g'.symbols := h.map Rule.symbol
  by_cases hsymbol : symbol ∈ g.symbols
  · obtain ⟨r, hr, rfl⟩ := List.mem_map.mp hsymbol
    rw [productions?_symbol hg.distinct hr,
      productions?_symbol (hg.of_perm h).distinct (h.mem_iff.mp hr)]
  · have hsymbol' : symbol ∉ g'.symbols := fun hmem => hsymbol (hsymbols.mem_iff.mpr hmem)
    rw [productions?_eq_none_iff.mpr hsymbol, productions?_eq_none_iff.mpr hsymbol']

/-- **A text in another order has the same rules**, in that order. -/
theorem exists_compile_of_perm (h : compile text = .ok g)
    (hperm : (sources text).Perm (sources text')) :
    ∃ g', compile text' = .ok g' ∧ g.rules.Perm g'.rules := by
  obtain ⟨hvalid, hwritten⟩ := compile_eq_ok_iff.mp h
  have hlines := (writtenIn_iff_sources.mp hwritten).flip
  obtain ⟨rs, hlines', hrules⟩ := List.perm_comp_forall₂ hperm.symm hlines
  cases rs with
  | nil => cases hrules.symm.eq_nil
  | cons first others =>
    refine ⟨⟨first, others⟩, compile_eq_ok_iff.mpr ⟨hvalid.of_perm hrules.symm, ?_⟩, hrules.symm⟩
    exact writtenIn_iff_sources.mpr hlines'.flip

/-! ### Both -/

/-- **The layout of a text and the order of its definitions do not matter.**  If two texts have
the same definitions in the same order, and whatever blank lines and comments between them, they
are compiled to the same grammar or fail with the same error, whose line is moved to where it now
stands; an error that names a line names that of a definition.  If one text has the definitions
of another one in another order and the other one is compiled, then so is this one, with the same
productions for every symbol; the symbols are in the new order, and the first of them is where
derivations start. -/
theorem compile_layout_order (text text' : String) :
    (sources text = sources text' →
      ∃ place : Nat → Nat, definitionLines text' = (definitionLines text).map (Prod.map id place) ∧
        compile text' = (compile text).mapError (.moved place)) ∧
    (∀ line fault, compile text = .error (.located line fault) →
      line ∈ (definitionLines text).map Prod.snd) ∧
    ∀ g, compile text = .ok g → (sources text).Perm (sources text') →
      ∃ g', compile text' = .ok g' ∧
        (∀ symbol, g'.productions? symbol = g.productions? symbol) ∧
        g.symbols = (sources text).map Definition.symbolOf ∧
        g'.symbols = (sources text').map Definition.symbolOf ∧
        g'.symbols.head? = some g'.start := by
  refine ⟨fun h => ?_, fun line fault h => ?_, fun g h hperm => ?_⟩
  · obtain ⟨place, hplace⟩ := exists_place h (Definition.nodup_numbered _ _)
    refine ⟨place, hplace, ?_⟩
    rw [compile_eq_compileLines, compile_eq_compileLines, hplace, compileLines_moved]
  · rw [compile_eq_compileLines] at h
    exact mem_of_compileLines_eq_error h
  · obtain ⟨hvalid, hwritten⟩ := compile_eq_ok_iff.mp h
    obtain ⟨g', hg', hrules⟩ := exists_compile_of_perm h hperm
    exact ⟨g', hg', hvalid.productions?_eq_of_perm hrules, symbols_eq_of_writtenIn hwritten,
      symbols_eq_of_writtenIn (compile_eq_ok_iff.mp hg').2, rfl⟩

/-- A comment and blank lines move the line of an error; a reference may point backward as well
as forward. -/
theorem compile_layout_order_swapped :
    (compile "A :: x:1\nA :: y:1" = .error (.located 2 (.duplicate "A")) ∧
      compile "# twice\n A :: x:1\n\n;\nA :: y:1" = .error (.located 5 (.duplicate "A"))) ∧
    ∃ g g' : Grammar, compile "A :: B:1\nB :: x:1" = .ok g ∧
      compile "B :: x:1\n\nA :: B:1" = .ok g' ∧ g.start = "A" ∧ g'.start = "B" ∧
      g'.productions? "A" = g.productions? "A" := by
  have herror : compile "A :: x:1\nA :: y:1" = .error (.located 2 (.duplicate "A")) := by
    decide
  obtain ⟨place, hplace, hmoved⟩ := (compile_layout_order "A :: x:1\nA :: y:1"
    "# twice\n A :: x:1\n\n;\nA :: y:1").1 (by decide)
  have hbefore : (definitionLines "A :: x:1\nA :: y:1").map Prod.snd = [1, 2] := by decide
  have hafter : (definitionLines "# twice\n A :: x:1\n\n;\nA :: y:1").map Prod.snd = [2, 5] := by
    decide
  -- The numbers of the two lines tell where the second one stands now.
  have hnumbers : [2, 5] = [1, 2].map place := by
    rw [← hafter, ← hbefore, hplace, List.map_map, List.map_map]
    rfl
  have hrules : compile "A :: B:1\nB :: x:1" =
      .ok ⟨⟨"A", [⟨.alias "B", [], 1⟩]⟩, [⟨"B", [⟨.node .x, [], 1⟩]⟩]⟩ := by
    decide
  obtain ⟨g', hg', hfound, -, hsymbols, hstart⟩ := (compile_layout_order "A :: B:1\nB :: x:1"
    "B :: x:1\n\nA :: B:1").2.2 _ hrules (by decide)
  have hfirst : (sources "B :: x:1\n\nA :: B:1").map Definition.symbolOf = ["B", "A"] := by
    decide
  rw [hsymbols, hfirst] at hstart
  refine ⟨⟨herror, ?_⟩, _, g', hrules, hg', rfl, (Option.some.inj hstart).symm, hfound "A"⟩
  have hfive : 5 = place 2 := (List.cons.inj (List.cons.inj hnumbers).2).1
  rw [hmoved, herror, Except.mapError, GrammarError.moved, ← hfive]

end Grammar

end GrammarArt
