import GrammarArt.Derivation
import GrammarArt.Proofs.Grammar.Compiled

/-! # The trees that symbols are expanded to

An expansion picks a production, goes on with the symbol that it stands for or expands its
symbols, and builds a node.  So what holds of every node that is built from children of which
it holds already, holds of every tree that a symbol is expanded to (`expand_induct`); it may
depend on the depth that was left.  Nothing is asked of the source here.
-/
namespace GrammarArt

variable {σ : Type}

/-- The production is one of the symbol's. -/
def Grammar.Has (g : Grammar) (symbol : String) (p : Production) : Prop :=
  ∃ ps, g.productions? symbol = some ps ∧ p ∈ ps

theorem Grammar.WellFormed.sound_of_has {g : Grammar} (hg : g.WellFormed) {symbol : String}
    {p : Production} (h : g.Has symbol p) : p.Sound := by
  obtain ⟨ps, hps, hp⟩ := h
  exact hg.sound hps p hp

namespace Derivation

/-- What a computation and the next one return. -/
theorem andThen_eq_ok_iff {α β : Type} {first : Drawing σ α} {next : α → Drawing σ β}
    {source source' : σ} {b : β} : first.andThen next source = (.ok b, source') ↔
      ∃ a between, first source = (.ok a, between) ∧ next a between = (.ok b, source') := by
  unfold Drawing.andThen
  constructor
  · intro h
    split at h
    · cases h
    · rename_i a between hfirst
      exact ⟨a, between, hfirst, h⟩
  · rintro ⟨a, between, hfirst, hnext⟩
    rw [hfirst]
    exact hnext

/-- Where the error of a computation and the next one comes from. -/
theorem andThen_eq_error_iff {α β : Type} {first : Drawing σ α} {next : α → Drawing σ β}
    {source : σ} {e : DerivationError} :
    (first.andThen next source).1 = .error e ↔ (first source).1 = .error e ∨
      ∃ a between, first source = (.ok a, between) ∧ (next a between).1 = .error e := by
  unfold Drawing.andThen
  constructor
  · intro h
    split at h
    · rename_i hfirst
      rw [hfirst]
      exact .inl (congrArg Except.error (Except.error.inj h))
    · rename_i a between hfirst
      exact .inr ⟨a, between, hfirst, h⟩
  · rintro (hfailed | ⟨a, between, hfirst, hnext⟩)
    · split
      · rename_i hfirst
        rw [hfirst] at hfailed
        exact congrArg Except.error (Except.error.inj hfailed)
      · rename_i hfirst
        rw [hfirst] at hfailed
        cases hfailed
    · rw [hfirst]
      exact hnext

variable {source source' : σ}

theorem forall_of_expandAll {expand : String → Drawing σ Tree} {P : Tree → Prop}
    (hexpand : ∀ symbol t (source source' : σ), expand symbol source = (.ok t, source') → P t)
    {symbols : List String} {ts : List Tree}
    (h : expandAll expand symbols source = (.ok ts, source')) : ∀ t ∈ ts, P t := by
  induction symbols generalizing ts source with
  | nil =>
    cases h
    exact nofun
  | cons symbol symbols ih =>
    obtain ⟨t, between, ht, hrest⟩ := andThen_eq_ok_iff.mp h
    obtain ⟨ts, between', hts, heq⟩ := andThen_eq_ok_iff.mp hrest
    cases heq
    exact List.forall_mem_cons.mpr ⟨hexpand symbol t _ _ ht, ih hts⟩

/-- If the trees for some symbols are not made, one of them is not. -/
theorem exists_of_expandAll_eq_error {expand : String → Drawing σ Tree} {symbols : List String}
    {e : DerivationError} (h : (expandAll expand symbols source).1 = .error e) :
    ∃ symbol ∈ symbols, ∃ between, (expand symbol between).1 = .error e := by
  induction symbols generalizing source with
  | nil => cases h
  | cons symbol symbols ih =>
    rcases andThen_eq_error_iff.mp h with hfirst | ⟨t, between, -, hrest⟩
    · exact ⟨symbol, List.mem_cons_self, source, hfirst⟩
    rcases andThen_eq_error_iff.mp hrest with hlater | ⟨ts, between', -, hnone⟩
    · obtain ⟨later, hmem, hbetween⟩ := ih hlater
      exact ⟨later, List.mem_cons_of_mem _ hmem, hbetween⟩
    · cases hnone

variable [RandomSource σ] {g : Grammar}

/-- What is picked is the entry that a weighted choice among the eligible ones names. -/
theorem exists_of_pick {symbol : String} {eligible : Production → Bool} {p : Production}
    (h : pick g symbol eligible source = (.ok p, source')) :
    ∃ ps i, g.productions? symbol = some ps ∧
      chooseWeighted ((ps.filter eligible).map Production.weight) (RandomSource.next source).1 =
        some i ∧
      (ps.filter eligible)[i]? = some p ∧ source' = (RandomSource.next source).2 := by
  unfold pick at h
  split at h
  · cases h
  · rename_i ps hps
    simp only at h
    split at h
    · rename_i production hchosen
      cases h
      obtain ⟨i, hi, hproduction⟩ := Option.bind_eq_some_iff.mp hchosen
      exact ⟨ps, i, hps, hi, hproduction, rfl⟩
    · cases h

theorem has_of_pick {symbol : String} {eligible : Production → Bool} {p : Production}
    (h : pick g symbol eligible source = (.ok p, source')) :
    g.Has symbol p ∧ eligible p = true := by
  obtain ⟨ps, i, hps, -, hp, -⟩ := exists_of_pick h
  have hmem := List.mem_filter.mp (List.mem_of_getElem? hp)
  exact ⟨⟨ps, hps, hmem.1⟩, hmem.2⟩

/-- What is built is a node of the kind, with the children and with the filled parameters. -/
theorem of_buildNode {kind : Kind} {literals : List Float32} {children : List Tree} {t : Tree}
    (h : buildNode kind literals children source = (.ok t, source')) :
    t.kind = kind ∧ t.children = children ∧
      fillParameters kind.parameters literals source = (t.parameters, source') := by
  unfold buildNode at h
  simp only at h
  split at h
  · rename_i hmake
    cases h
    obtain ⟨-, hkind, hchildren, hparameters⟩ := Tree.make_eq_ok_iff.mp hmake
    exact ⟨hkind, hchildren, Prod.ext hparameters.symm rfl⟩
  · cases h

/-- **What is kept whenever a node is built holds of every tree that a symbol is expanded
to.** -/
theorem expand_induct {P : Nat → Tree → Prop}
    (leaf : ∀ symbol p kind t (source source' : σ), g.Has symbol p → p.target = .node kind →
      buildNode kind p.literals [] source = (.ok t, source') → P 0 t)
    (relay : ∀ depth t, P depth t → P (depth + 1) t)
    (node : ∀ depth symbol p kind children t (source source' : σ), g.Has symbol p →
      p.target = .node kind → (∀ c ∈ children, P depth c) →
      buildNode kind p.literals children source = (.ok t, source') → P (depth + 1) t)
    {depth : Nat} {symbol : String} {t : Tree}
    (h : expand g depth symbol source = (.ok t, source')) : P depth t := by
  induction depth generalizing symbol t source source' with
  | zero =>
    obtain ⟨p, between, hpick, hmake⟩ := andThen_eq_ok_iff.mp h
    rcases htarget : p.target with kind | next
    · simp only [htarget] at hmake
      exact leaf _ p kind t _ _ (has_of_pick hpick).1 htarget hmake
    · simp only [htarget] at hmake
      cases hmake
  | succ depth ih =>
    obtain ⟨p, between, hpick, hmake⟩ := andThen_eq_ok_iff.mp h
    rcases htarget : p.target with kind | next
    · simp only [htarget] at hmake
      obtain ⟨children, between', hall, hbuild⟩ := andThen_eq_ok_iff.mp hmake
      exact node depth _ p kind children t _ _ (has_of_pick hpick).1 htarget
        (forall_of_expandAll (fun _ _ _ _ => ih) hall) hbuild
    · simp only [htarget] at hmake
      exact relay depth t (ih hmake)

end Derivation

end GrammarArt
