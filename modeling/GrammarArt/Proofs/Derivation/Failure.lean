import GrammarArt.Proofs.Derivation.Generation
import GrammarArt.Proofs.Derivation.Recursion
import GrammarArt.Proofs.Grammar.Resolution

/-! # When a derivation fails

Compiling a grammar checks that the weights of every rule have a positive total and that every
symbol a production names is declared.  So as long as there is depth left, a production is
found for every symbol that is met: a choice is empty only if nothing has a positive weight
(`pick_eq_error_iff`), however the sum of the weights is rounded.

What can fail is the choice that is made when no depth is left, in a grammar without the terminal
symbol.  It fails at a symbol without an exit (`Grammar.HasExit`), and this is the only way in
which a derivation from a declared symbol fails (`of_expand_eq_error`).

The symbol that a derivation starts with need not be declared, and it is looked up by the first
choice.  At depth zero this choice is one of the terminal symbol, if the grammar has it, so then
nobody notices that there is no such symbol (`derive_unknownSymbol_iff`).
-/
namespace GrammarArt

open RandomSource

/-- Numbers fixed in advance are a source if they lie in `[0, 1)`. -/
theorem Replay.drawsUnit {draws : List Float32} (h : ∀ u ∈ draws, 0 ≤ u ∧ u < 1) (used : Nat) :
    DrawsUnit (Replay.mk draws used) := by
  intro n
  induction n generalizing used with
  | zero =>
    show 0 ≤ draws.getD (min used (draws.length - 1)) 0 ∧
      draws.getD (min used (draws.length - 1)) 0 < 1
    rw [List.getD_eq_getElem?_getD]
    rcases hget : draws[min used (draws.length - 1)]? with _ | u
    · decide
    · exact h u (List.mem_of_getElem? hget)
  | succ n ih => exact ih (used + 1)

/-! ### What the productions of a valid grammar name -/

namespace Grammar

variable {g : Grammar} {symbol : String} {p : Production}

/-- Some production of the symbol makes a node without children, and can be chosen for that. -/
def HasExit (g : Grammar) (symbol : String) : Prop :=
  ∃ p, g.Has symbol p ∧ p.isTerminal = true ∧ 0 < p.weight

theorem Has.exists_rule (h : g.Has symbol p) :
    ∃ r ∈ g.rules, r.symbol = symbol ∧ p ∈ r.productions := by
  obtain ⟨ps, hps, hp⟩ := h
  obtain ⟨r, hr, hsymbol, rfl⟩ := exists_rule_of_productions? hps
  exact ⟨r, hr, hsymbol, hp⟩

theorem Valid.resolved_of_has (hg : g.Valid) (h : g.Has symbol p) : p.Resolved g.symbols := by
  obtain ⟨r, hr, -, hp⟩ := h.exists_rule
  exact (hg.rules r hr).productions p hp

theorem Valid.weight_nonneg_of_has (hg : g.Valid) (h : g.Has symbol p) : 0 ≤ p.weight := by
  obtain ⟨r, hr, -, hp⟩ := h.exists_rule
  exact ((hg.rules r hr).numbers p hp).weight_nonneg

theorem Valid.isTerminal_of_has (hg : g.Valid) (h : g.Has terminalSymbol p) :
    p.isTerminal = true := by
  obtain ⟨r, hr, hsymbol, hp⟩ := h.exists_rule
  exact (hg.rules r hr).terminal hsymbol p hp

/-- The total of a rule is positive because one of its weights is. -/
theorem Valid.exists_has_pos (hg : g.Valid) (hsymbol : symbol ∈ g.symbols) :
    ∃ p, g.Has symbol p ∧ 0 < p.weight := by
  obtain ⟨r, hr, rfl⟩ := List.mem_map.mp hsymbol
  have hfound : ∀ p ∈ r.productions, g.Has r.symbol p := fun p hp =>
    ⟨r.productions, productions?_symbol hg.distinct hr, hp⟩
  have hweights : ∀ w ∈ r.productions.map Production.weight, 0 ≤ w :=
    List.forall_mem_map.mpr fun p hp => hg.weight_nonneg_of_has (hfound p hp)
  obtain ⟨w, hw, hpos⟩ := (totalWeight_pos_iff hweights).mp (hg.rules r hr).total_pos
  obtain ⟨p, hp, rfl⟩ := List.mem_map.mp hw
  exact ⟨p, hfound p hp, hpos⟩

theorem Valid.hasExit_terminalSymbol (hg : g.Valid) (h : terminalSymbol ∈ g.symbols) :
    g.HasExit terminalSymbol := by
  obtain ⟨p, hhas, hpos⟩ := hg.exists_has_pos h
  exact ⟨p, hhas, hg.isTerminal_of_has hhas, hpos⟩

end Grammar

namespace Derivation

variable {σ : Type}

theorem exists_ok_of_forall_ne_error {α : Type} {drawing : Drawing σ α} {source : σ}
    (h : ∀ e, (drawing source).1 ≠ .error e) : ∃ a source', drawing source = (.ok a, source') := by
  rcases hresult : drawing source with ⟨e | a, source'⟩
  · exact absurd (congrArg Prod.fst hresult) (h e)
  · exact ⟨a, source', rfl⟩

variable [RandomSource σ] {g : Grammar} {source : σ} {e : DerivationError}

/-! ### Choices -/

/-- A choice by weight finds one of the productions if one of them has a positive weight. -/
theorem chosen_eq_none_iff {ps : List Production} (hps : ∀ p ∈ ps, 0 ≤ p.weight) (u : Float32) :
    (chooseWeighted (ps.map Production.weight) u).bind (ps[·]?) = none ↔
      ∀ p ∈ ps, ¬ 0 < p.weight := by
  have hchosen := exists_chooseWeighted_iff (List.forall_mem_map.mpr hps) u
  simp only [List.mem_map, exists_exists_and_eq_and] at hchosen
  cases hchoice : chooseWeighted (ps.map Production.weight) u with
  | none =>
    rw [hchoice] at hchosen
    have hnone : ¬ ∃ p ∈ ps, 0 < p.weight := fun h => by simpa using hchosen.mpr h
    rw [Option.bind_none]
    exact iff_of_true rfl fun p hp hpos => hnone ⟨p, hp, hpos⟩
  | some i =>
    -- The number that is drawn never leads outside of the list.
    have hi : i < ps.length := by simpa using lt_length_of_chooseWeighted hchoice
    obtain ⟨p, hp, hpos⟩ := hchosen.mp ⟨i, hchoice⟩
    rw [Option.bind_some, List.getElem?_eq_getElem hi]
    exact iff_of_false (Option.some_ne_none _) fun h => h p hp hpos

/-- **A choice fails if the symbol is not declared or has nothing that can be chosen.** -/
theorem pick_eq_error_iff (hg : g.Valid) {symbol : String} {eligible : Production → Bool} :
    (pick g symbol eligible source).1 = .error e ↔
      symbol ∉ g.symbols ∧ e = .unknownSymbol symbol ∨
      symbol ∈ g.symbols ∧ e = .depthExhausted symbol ∧
        ∀ p, g.Has symbol p → eligible p = true → ¬ 0 < p.weight := by
  unfold pick
  cases hps : g.productions? symbol with
  | none =>
    have hundeclared := Grammar.productions?_eq_none_iff.mp hps
    simp only [hundeclared, not_false_eq_true, true_and, false_and, or_false, Except.error.injEq]
    exact eq_comm
  | some ps =>
    have hdeclared : symbol ∈ g.symbols := Decidable.not_not.mp fun h => by
      rw [Grammar.productions?_eq_none_iff.mpr h] at hps
      cases hps
    have hhas : ∀ p, g.Has symbol p ↔ p ∈ ps := fun p => by simp [Grammar.Has, hps]
    have hweights : ∀ p ∈ ps.filter eligible, 0 ≤ p.weight := fun p hp =>
      hg.weight_nonneg_of_has ((hhas p).mpr (List.mem_filter.mp hp).1)
    have hnone := chosen_eq_none_iff hweights (next source).1
    simp only [List.mem_filter, and_imp, ← hhas] at hnone
    simp only [hdeclared, not_true_eq_false, true_and, false_and, false_or, ← hnone]
    cases (chooseWeighted ((ps.filter eligible).map Production.weight) (next source).1).bind
        ((ps.filter eligible)[·]?) with
    | none => simp only [and_true, Except.error.injEq, eq_comm]
    | some p => simp only [reduceCtorEq, and_false]

/-! ### Expansions -/

/-- **When no depth is left, the terminal symbol never fails**; without it, the symbol itself
has to have an exit. -/
theorem expand_zero_eq_error_iff (hg : g.Valid) {symbol : String} :
    (expand g 0 symbol source).1 = .error e ↔
      Grammar.terminalSymbol ∉ g.symbols ∧
        (symbol ∉ g.symbols ∧ e = .unknownSymbol symbol ∨
          symbol ∈ g.symbols ∧ e = .depthExhausted symbol ∧ ¬ g.HasExit symbol) := by
  have hchoice : (expand g 0 symbol source).1 = .error e ↔
      (pick g (fallback g symbol) Production.isTerminal source).1 = .error e := by
    constructor
    · intro h
      rcases andThen_eq_error_iff.mp h with hpick | ⟨p, between, hpick, hmake⟩
      · exact hpick
      · obtain ⟨-, hterminal⟩ := has_of_pick hpick
        unfold Production.isTerminal at hterminal
        rcases htarget : p.target with kind | next
        · simp only [htarget] at hterminal hmake
          have hnone : ([] : List Tree).length = kind.arity := (of_decide_eq_true hterminal).symm
          exact absurd hmake (buildNode_ne_error hnone _ _ _)
        · rw [htarget] at hterminal
          cases hterminal
    · exact fun hpick => andThen_eq_error_iff.mpr (.inl hpick)
  rw [hchoice, pick_eq_error_iff hg]
  by_cases hdeclares : Grammar.terminalSymbol ∈ g.symbols
  · have hfallback : fallback g symbol = Grammar.terminalSymbol := by
      simp [fallback, Grammar.declares, hdeclares]
    obtain ⟨p, hhas, hterminal, hpos⟩ := hg.hasExit_terminalSymbol hdeclares
    rw [hfallback]
    refine iff_of_false ?_ fun h => h.1 hdeclares
    rintro (⟨hundeclared, -⟩ | ⟨-, -, hnone⟩)
    · exact hundeclared hdeclares
    · exact hnone p hhas hterminal hpos
  · have hfallback : fallback g symbol = symbol := by
      simp [fallback, Grammar.declares, hdeclares]
    have hexit : (∀ p, g.Has symbol p → p.isTerminal = true → ¬ 0 < p.weight) ↔
        ¬ g.HasExit symbol := by
      simp only [Grammar.HasExit, not_exists, not_and]
    rw [hfallback, hexit, and_iff_right hdeclares]

/-- **An expansion only fails because the symbol is not declared, or for want of an exit.** -/
theorem of_expand_eq_error (hg : g.Valid) {depth : Nat} {symbol : String}
    (h : (expand g depth symbol source).1 = .error e) :
    symbol ∉ g.symbols ∧ e = .unknownSymbol symbol ∨
      Grammar.terminalSymbol ∉ g.symbols ∧
        ∃ dead ∈ g.symbols, ¬ g.HasExit dead ∧ e = .depthExhausted dead := by
  induction depth generalizing symbol source with
  | zero =>
    obtain ⟨hno, hundeclared | ⟨hsymbol, he, hexit⟩⟩ := (expand_zero_eq_error_iff hg).mp h
    · exact .inl hundeclared
    · exact .inr ⟨hno, symbol, hsymbol, hexit, he⟩
  | succ depth ih =>
    rcases andThen_eq_error_iff.mp h with hpick | ⟨p, between, hpick, hmake⟩
    · rcases (pick_eq_error_iff hg).mp hpick with hundeclared | ⟨hsymbol, -, hnone⟩
      · exact .inl hundeclared
      · -- The total of the rule is positive, so something can be chosen.
        obtain ⟨p, hhas, hpos⟩ := hg.exists_has_pos hsymbol
        exact absurd hpos (hnone p hhas rfl)
    · obtain ⟨hhas, -⟩ := has_of_pick hpick
      have hresolved := hg.resolved_of_has hhas
      rcases htarget : p.target with kind | next
      · simp only [htarget] at hmake
        rcases andThen_eq_error_iff.mp hmake with hall | ⟨children, between', hall, hbuild⟩
        · obtain ⟨child, hchild, between', hfails⟩ := exists_of_expandAll_eq_error hall
          have hdeclared := hresolved.symbols child hchild
          exact .inr ((ih hfails).resolve_left fun h => h.1 hdeclared)
        · have hcount := (length_of_expandAll hall).trans (hresolved.counts kind htarget).1
          exact absurd hbuild (buildNode_ne_error hcount _ _ _)
      · simp only [htarget] at hmake
        have hdeclared := (hresolved.reference next htarget).1
        exact .inr ((ih hmake).resolve_left fun h => h.1 hdeclared)

/-- Where a symbol is looked up, it is found out if it is not declared. -/
theorem expand_eq_unknownSymbol_iff (hg : g.Valid) {depth : Nat} {symbol name : String} :
    (expand g depth symbol source).1 = .error (.unknownSymbol name) ↔
      name = symbol ∧ symbol ∉ g.symbols ∧
        ¬ (depth = 0 ∧ Grammar.terminalSymbol ∈ g.symbols) := by
  constructor
  · intro h
    rcases of_expand_eq_error hg h with ⟨hundeclared, hname⟩ | ⟨-, dead, -, -, hname⟩
    · cases hname
      refine ⟨rfl, hundeclared, ?_⟩
      rintro ⟨rfl, hdeclares⟩
      exact ((expand_zero_eq_error_iff hg).mp h).1 hdeclares
    · cases hname
  · rintro ⟨rfl, hundeclared, hnot⟩
    cases depth with
    | zero =>
      exact (expand_zero_eq_error_iff hg).mpr ⟨fun h => hnot ⟨rfl, h⟩, .inl ⟨hundeclared, rfl⟩⟩
    | succ depth =>
      have hpick : (pick g name (fun _ => true) source).1 = .error (.unknownSymbol name) :=
        (pick_eq_error_iff hg).mpr (.inl ⟨hundeclared, rfl⟩)
      exact andThen_eq_error_iff.mpr (.inl hpick)

end Derivation

/-! ### Derivations -/

namespace Grammar

variable {σ : Type} [RandomSource σ] {g : Grammar}

theorem derive_eq_error_iff {start : String} {depth : Nat} (hdepth : depth ≤ Derivation.maxDepth)
    {source : σ} {e : DerivationError} :
    (g.derive start depth source).1 = .error e ↔
      (Derivation.expand g depth start source).1 = .error e := by
  rw [derive, if_neg (Nat.not_lt.mpr hdepth), Derivation.andThen_eq_error_iff]
  refine or_iff_left ?_
  rintro ⟨t, between, -, hnone⟩
  cases hnone

/-- **A derivation from a declared symbol fails only for want of an exit.**  In a grammar with the
terminal symbol it never fails.  In one without it, the only error names a symbol of the grammar
that has no exit, so there is none if every symbol has one; and a derivation that is given no
depth does fail at such a symbol.  None of this depends on the numbers of the source. -/
theorem derive_fails_only_without_exit {text : String} (hg : compile text = .ok g)
    {start : String} (hstart : start ∈ g.symbols) {depth : Nat}
    (hdepth : depth ≤ Derivation.maxDepth) (source : σ) :
    (terminalSymbol ∈ g.symbols → ∃ d source', g.derive start depth source = (.ok d, source')) ∧
    (∀ e, (g.derive start depth source).1 = .error e → terminalSymbol ∉ g.symbols ∧
      ∃ symbol ∈ g.symbols, ¬ g.HasExit symbol ∧ e = .depthExhausted symbol) ∧
    ((∀ symbol ∈ g.symbols, g.HasExit symbol) →
      ∃ d source', g.derive start depth source = (.ok d, source')) ∧
    (terminalSymbol ∉ g.symbols → ¬ g.HasExit start →
      (g.derive start 0 source).1 = .error (.depthExhausted start)) := by
  have hvalid := (compile_eq_ok_iff.mp hg).1
  have hfails : ∀ e, (g.derive start depth source).1 = .error e → terminalSymbol ∉ g.symbols ∧
      ∃ symbol ∈ g.symbols, ¬ g.HasExit symbol ∧ e = .depthExhausted symbol := fun e he =>
    (Derivation.of_expand_eq_error hvalid ((derive_eq_error_iff hdepth).mp he)).resolve_left
      fun h => h.1 hstart
  refine ⟨fun hdeclares => ?_, hfails, fun hexits => ?_, fun hno hexit => ?_⟩
  · exact Derivation.exists_ok_of_forall_ne_error fun e he => (hfails e he).1 hdeclares
  · refine Derivation.exists_ok_of_forall_ne_error fun e he => ?_
    obtain ⟨-, symbol, hsymbol, hexit, -⟩ := hfails e he
    exact hexit (hexits symbol hsymbol)
  · exact (derive_eq_error_iff (Nat.zero_le _)).mpr
      ((Derivation.expand_zero_eq_error_iff hvalid).mpr ⟨hno, .inr ⟨hstart, rfl, hexit⟩⟩)

/-- A production of no weight is no exit, neither is one that needs depth. -/
theorem derive_fails_only_without_exit_of_weight_zero :
    ∃ g : Grammar, compile "A :: sum(B, B):1 | x:0\nB :: y:1" = .ok g ∧ "A" ∈ g.symbols ∧
      0 ≤ Derivation.maxDepth ∧
      (g.derive "A" 0 (Replay.mk [] 0)).1 = .error (.depthExhausted "A") := by
  let g : Grammar :=
    ⟨⟨"A", [⟨.node .sum, [.symbol "B", .symbol "B"], 1⟩, ⟨.node .x, [], 0⟩]⟩,
      [⟨"B", [⟨.node .y, [], 1⟩]⟩]⟩
  have hcompile : compile "A :: sum(B, B):1 | x:0\nB :: y:1" = .ok g := by decide
  have hstart : "A" ∈ g.symbols := by decide
  have hexit : ¬ g.HasExit "A" := by
    have hnone : ∀ p ∈ g.first.productions, p.isTerminal = true → ¬ 0 < p.weight := by decide
    rintro ⟨p, ⟨ps, hps, hp⟩, hterminal, hpos⟩
    cases hps
    exact hnone p hp hterminal hpos
  obtain ⟨-, -, -, hfails⟩ :=
    derive_fails_only_without_exit hcompile hstart (Nat.zero_le _) (Replay.mk [] 0)
  exact ⟨g, hcompile, hstart, Nat.zero_le _, hfails (by decide) hexit⟩

/-- **A derivation tells of an undeclared symbol exactly if its start is not declared**, unless
it is given no depth in a grammar with the terminal symbol: then it makes a tree all the same. -/
theorem derive_unknownSymbol_iff {text : String} (hg : compile text = .ok g) (start : String)
    {depth : Nat} (hdepth : depth ≤ Derivation.maxDepth) (source : σ) :
    (∀ symbol, (g.derive start depth source).1 = .error (.unknownSymbol symbol) ↔
      symbol = start ∧ start ∉ g.symbols ∧ ¬ (depth = 0 ∧ terminalSymbol ∈ g.symbols)) ∧
    (start ∉ g.symbols → ((∃ d source', g.derive start depth source = (.ok d, source')) ↔
      depth = 0 ∧ terminalSymbol ∈ g.symbols)) := by
  have hvalid := (compile_eq_ok_iff.mp hg).1
  have hunknown : ∀ symbol, (g.derive start depth source).1 = .error (.unknownSymbol symbol) ↔
      symbol = start ∧ start ∉ g.symbols ∧ ¬ (depth = 0 ∧ terminalSymbol ∈ g.symbols) :=
    fun symbol => (derive_eq_error_iff hdepth).trans
      (Derivation.expand_eq_unknownSymbol_iff hvalid)
  refine ⟨hunknown, fun hstart => ⟨?_, ?_⟩⟩
  · rintro ⟨d, source', hok⟩
    by_contra hnot
    have herror := (hunknown start).mpr ⟨rfl, hstart, hnot⟩
    rw [hok] at herror
    cases herror
  · rintro ⟨rfl, hdeclares⟩
    refine Derivation.exists_ok_of_forall_ne_error fun e he => ?_
    exact ((Derivation.expand_zero_eq_error_iff hvalid).mp
      ((derive_eq_error_iff hdepth).mp he)).1 hdeclares

/-- With depth left, an undeclared start is told of also if there is the terminal symbol. -/
theorem derive_unknownSymbol_iff_undeclared :
    ∃ g : Grammar, compile "A :: x:1\nZ :: y:1" = .ok g ∧ 1 ≤ Derivation.maxDepth ∧
      (g.derive "B" 1 (Replay.mk [] 0)).1 = .error (.unknownSymbol "B") := by
  have hcompile : compile "A :: x:1\nZ :: y:1" =
      .ok ⟨⟨"A", [⟨.node .x, [], 1⟩]⟩, [⟨"Z", [⟨.node .y, [], 1⟩]⟩]⟩ := by
    decide
  have hdepth : 1 ≤ Derivation.maxDepth := by decide
  obtain ⟨hunknown, -⟩ := derive_unknownSymbol_iff hcompile "B" hdepth (Replay.mk [] 0)
  exact ⟨_, hcompile, hdepth, (hunknown "B").mpr ⟨rfl, by decide, by decide⟩⟩

/-- A tree from a start that is not declared. -/
theorem exists_derive_of_undeclared :
    ∃ g : Grammar, compile "A :: x:1\nZ :: y:1" = .ok g ∧ "B" ∉ g.symbols ∧
      DrawsUnit (Replay.mk [0] 0) ∧
      g.derive "B" 0 (Replay.mk [0] 0) = (.ok ⟨.terminal 0 .y, 1⟩, ⟨[0], 1⟩) ∧
      (g.derive "B" 0 (Replay.mk [0] 0)).1 ≠ .error (.unknownSymbol "B") := by
  have hcompile : compile "A :: x:1\nZ :: y:1" =
      .ok ⟨⟨"A", [⟨.node .x, [], 1⟩]⟩, [⟨"Z", [⟨.node .y, [], 1⟩]⟩]⟩ := by
    decide
  have hdraws : ∀ u ∈ [(0 : Float32)], 0 ≤ u ∧ u < 1 := by decide
  refine ⟨_, hcompile, by decide, Replay.drawsUnit hdraws 0, by decide, ?_⟩
  decide

end Grammar

end GrammarArt
