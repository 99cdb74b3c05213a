import GrammarArt.Proofs.Derivation.Choice
import GrammarArt.Proofs.Derivation.Expansion
import GrammarArt.Proofs.Tree.Numbering
import Mathlib.Logic.Function.Iterate

/-! # Every derived tree belongs to the grammar

`Generates` says which trees a grammar generates from a symbol, given how much depth is left
and which numbers the source gives.  It does not say how a production is chosen: it may be any
one that the symbol has at this depth and that has a positive weight.  But it does say which
numbers are taken from the source and for what, so the state of the source is threaded
through it.

A derivation follows the relation step by step (`follows_expand`), if the source gives
numbers in `[0, 1)`.  Identifiers do not matter for it (`ignoresIds_generates`), so neither
does it that the tree is numbered in the end.
-/
namespace GrammarArt

variable {σ : Type}

/-! ### One thing after the other -/

/-- Things made one after the other, each from an element of a list and what is left of a
source. -/
inductive InOrder {α β : Type} (R : α → σ → β → σ → Prop) : List α → σ → List β → σ → Prop where
  | nil (source : σ) : InOrder R [] source [] source
  | cons {a : α} {b : β} {as : List α} {bs : List β} {source between source' : σ}
    (head : R a source b between) (tail : InOrder R as between bs source') :
    InOrder R (a :: as) source (b :: bs) source'

/-- The relation does not look at identifiers. -/
def IgnoresIds (R : String → σ → Tree → σ → Prop) : Prop :=
  ∀ ⦃symbol source t u source'⦄, t.erased = u.erased →
    R symbol source t source' → R symbol source u source'

theorem InOrder.congr {R : String → σ → Tree → σ → Prop} (hR : IgnoresIds R)
    {symbols : List String} {ts us : List Tree} {source source' : σ}
    (hsame : ts.map Tree.erased = us.map Tree.erased) (h : InOrder R symbols source ts source') :
    InOrder R symbols source us source' := by
  induction h generalizing us with
  | nil source =>
    cases List.map_eq_nil_iff.mp hsame.symm
    exact .nil source
  | cons head tail ih =>
    obtain ⟨u, us, rfl, hu, hus⟩ := List.map_eq_cons_iff.mp hsame.symm
    exact .cons (hR hu.symm head) (ih hus.symm)

/-! ### The relation -/

variable [RandomSource σ]

/-- The source after its next number. -/
def RandomSource.after (source : σ) : σ := (next source).2

/-- All numbers that the source gives lie in `[0, 1)`. -/
def RandomSource.DrawsUnit (source : σ) : Prop :=
  ∀ n, 0 ≤ (next (after^[n] source)).1 ∧ (next (after^[n] source)).1 < 1

theorem RandomSource.DrawsUnit.after {source : σ} (h : DrawsUnit source) :
    DrawsUnit (after source) := fun n => h (n + 1)

/-- A number drawn for a parameter. -/
def Parameter.Draws (p : Parameter) (source : σ) (value : Float32) (source' : σ) : Prop :=
  RandomSource.range p.low p.high source = (value, source')

/-- The parameters of a node: the given numbers, and drawn ones for those that remain. -/
def FillsParameters (parameters : List Parameter) (literals : List Float32) (source : σ)
    (values : List Float32) (source' : σ) : Prop :=
  ∃ drawn, values = literals ++ drawn ∧
    InOrder Parameter.Draws (parameters.drop literals.length) source drawn source'

/-- What a production makes, where symbols make what `R` says. -/
def Production.Makes (R : String → σ → Tree → σ → Prop) (p : Production) (source : σ)
    (t : Tree) (source' : σ) : Prop :=
  match p.target with
  | .alias symbol => R symbol source t source'
  | .node kind => t.kind = kind ∧ ∃ between, InOrder R p.symbols source t.children between ∧
      FillsParameters kind.parameters p.literals between t.parameters source'

namespace Grammar

/-- The productions that can be chosen for a symbol, given the depth that is left. -/
def Admits (g : Grammar) : (depth : Nat) → String → Production → Prop
  | 0, symbol, p => 0 < p.weight ∧
    if g.declares terminalSymbol then g.Has terminalSymbol p
    else g.Has symbol p ∧ p.isTerminal = true
  | _ + 1, symbol, p => 0 < p.weight ∧ g.Has symbol p

/-- The trees that the grammar generates from a symbol, given the depth that is left and a
source; and the source that is left then.  The first number of the source goes to the choice
of a production. -/
def Generates (g : Grammar) : (depth : Nat) → String → σ → Tree → σ → Prop
  | 0, symbol, source, t, source' => ∃ p, g.Admits 0 symbol p ∧
    p.Makes (fun _ _ _ _ => False) (RandomSource.after source) t source'
  | depth + 1, symbol, source, t, source' => ∃ p, g.Admits (depth + 1) symbol p ∧
    p.Makes (g.Generates depth) (RandomSource.after source) t source'

end Grammar

/-! ### Identifiers do not matter -/

theorem Tree.parts_of_erased_eq {t u : Tree} (h : t.erased = u.erased) : t.kind = u.kind ∧
    t.children.map erased = u.children.map erased ∧ t.parameters = u.parameters := by
  obtain ⟨-, hkind, hchildren, hparameters⟩ := make_eq_ok_iff.mp t.make_erased
  obtain ⟨-, hkind', hchildren', hparameters'⟩ := make_eq_ok_iff.mp u.make_erased
  rw [← h] at hkind' hchildren' hparameters'
  exact ⟨hkind.symm.trans hkind', hchildren.symm.trans hchildren',
    hparameters.symm.trans hparameters'⟩

theorem Production.Makes.congr {R : String → σ → Tree → σ → Prop} (hR : IgnoresIds R)
    {p : Production} {source source' : σ} {t u : Tree} (hsame : t.erased = u.erased)
    (h : p.Makes R source t source') : p.Makes R source u source' := by
  obtain ⟨hkind, hchildren, hparameters⟩ := Tree.parts_of_erased_eq hsame
  unfold Makes at h ⊢
  split at h
  · exact hR hsame h
  · obtain ⟨rfl, between, horder, hfills⟩ := h
    rw [hparameters] at hfills
    exact ⟨hkind.symm, between, horder.congr hR hchildren, hfills⟩

theorem Grammar.ignoresIds_generates (g : Grammar) (depth : Nat) :
    IgnoresIds (g.Generates depth : String → σ → Tree → σ → Prop) := by
  induction depth with
  | zero =>
    rintro symbol source t u source' hsame ⟨p, hp, hmakes⟩
    exact ⟨p, hp, hmakes.congr (fun _ _ _ _ _ _ => False.elim) hsame⟩
  | succ depth ih =>
    rintro symbol source t u source' hsame ⟨p, hp, hmakes⟩
    exact ⟨p, hp, hmakes.congr ih hsame⟩

/-! ### Derivations follow the relation -/

namespace Derivation

open RandomSource

variable {g : Grammar} {source source' : σ}

/-- A production that is picked has a positive weight. -/
theorem weight_pos_of_pick (hg : g.WellFormed) {symbol : String} {eligible : Production → Bool}
    {p : Production} (hsource : DrawsUnit source)
    (h : pick g symbol eligible source = (.ok p, source')) : 0 < p.weight := by
  obtain ⟨ps, i, hps, hi, hp, -⟩ := exists_of_pick h
  have hnonneg : ∀ w ∈ (ps.filter eligible).map Production.weight, 0 ≤ w := by
    intro w hw
    obtain ⟨q, hq, rfl⟩ := List.mem_map.mp hw
    exact (hg.sound hps q (List.mem_filter.mp hq).1).weight_nonneg
  obtain ⟨w, hw, hpos⟩ := exists_of_chooseWeighted hnonneg (hsource 0).1 hi
  rw [List.getElem?_map, hp] at hw
  cases hw
  exact hpos

theorem after_of_pick {symbol : String} {eligible : Production → Bool} {p : Production}
    (h : pick g symbol eligible source = (.ok p, source')) : source' = after source := by
  obtain ⟨_, _, -, -, -, hsource'⟩ := exists_of_pick h
  exact hsource'

theorem fills_of_fillParameters {parameters : List Parameter} {literals values : List Float32}
    (hsource : DrawsUnit source) (hlength : literals.length ≤ parameters.length)
    (h : fillParameters parameters literals source = (values, source')) :
    FillsParameters parameters literals source values source' ∧ DrawsUnit source' := by
  induction parameters generalizing literals values source with
  | nil =>
    obtain rfl := List.eq_nil_of_length_eq_zero (Nat.le_zero.mp hlength)
    cases h
    exact ⟨⟨[], rfl, .nil _⟩, hsource⟩
  | cons p parameters ih =>
    cases literals with
    | nil =>
      cases h
      obtain ⟨⟨drawn, hdrawn, horder⟩, hafter⟩ := ih hsource.after (Nat.zero_le _) rfl
      exact ⟨⟨_, rfl, .cons rfl (hdrawn ▸ horder)⟩, hafter⟩
    | cons literal literals =>
      cases h
      obtain ⟨⟨drawn, hdrawn, horder⟩, hafter⟩ := ih hsource (Nat.le_of_succ_le_succ hlength) rfl
      exact ⟨⟨drawn, congrArg _ hdrawn, horder⟩, hafter⟩

/-- The trees that a computation makes are those of a relation. -/
def Follows (expand : String → Drawing σ Tree) (R : String → σ → Tree → σ → Prop) : Prop :=
  ∀ ⦃symbol source t source'⦄, DrawsUnit source → expand symbol source = (.ok t, source') →
    R symbol source t source' ∧ DrawsUnit source'

theorem inOrder_of_expandAll {expand : String → Drawing σ Tree}
    {R : String → σ → Tree → σ → Prop} (hexpand : Follows expand R) {symbols : List String}
    {ts : List Tree} (hsource : DrawsUnit source)
    (h : expandAll expand symbols source = (.ok ts, source')) :
    InOrder R symbols source ts source' ∧ DrawsUnit source' := by
  induction symbols generalizing ts source with
  | nil =>
    cases h
    exact ⟨.nil _, hsource⟩
  | cons symbol symbols ih =>
    obtain ⟨t, between, ht, hrest⟩ := andThen_eq_ok_iff.mp h
    obtain ⟨ts, between', hts, heq⟩ := andThen_eq_ok_iff.mp hrest
    cases heq
    obtain ⟨hR, hbetween⟩ := hexpand hsource ht
    obtain ⟨horder, hsource'⟩ := ih hbetween hts
    exact ⟨.cons hR horder, hsource'⟩

/-- **What a symbol is expanded to is generated from it.** -/
theorem follows_expand (hg : g.WellFormed) (depth : Nat) :
    Follows (expand g depth : String → Drawing σ Tree) (g.Generates depth) := by
  induction depth with
  | zero =>
    intro symbol source t source' hsource h
    obtain ⟨p, between, hpick, hmake⟩ := andThen_eq_ok_iff.mp h
    obtain ⟨hhas, hterminal⟩ := has_of_pick hpick
    have hsound := hg.sound_of_has hhas
    have hadmits : g.Admits 0 symbol p := by
      refine ⟨weight_pos_of_pick hg hsource hpick, ?_⟩
      unfold fallback at hhas
      split at hhas
      · rename_i hdeclares
        rw [if_pos hdeclares]
        exact hhas
      · rename_i hnot
        rw [if_neg hnot]
        exact ⟨hhas, hterminal⟩
    obtain rfl := after_of_pick hpick
    rcases htarget : p.target with kind | next
    · simp only [htarget] at hmake
      obtain ⟨hcount, hlength⟩ := hsound.counts kind htarget
      have harity : kind.arity = 0 := by simpa [Production.isTerminal, htarget] using hterminal
      have hsymbols : p.symbols = [] := List.eq_nil_of_length_eq_zero (hcount.trans harity)
      obtain ⟨rfl, hchildren, hfill⟩ := of_buildNode hmake
      obtain ⟨hfills, hsource'⟩ := fills_of_fillParameters hsource.after hlength hfill
      refine ⟨⟨p, hadmits, ?_⟩, hsource'⟩
      rw [Production.Makes, htarget]
      refine ⟨rfl, _, ?_, hfills⟩
      rw [hsymbols, hchildren]
      exact .nil _
    · simp only [htarget] at hmake
      cases hmake
  | succ depth ih =>
    intro symbol source t source' hsource h
    obtain ⟨p, between, hpick, hmake⟩ := andThen_eq_ok_iff.mp h
    obtain ⟨hhas, -⟩ := has_of_pick hpick
    have hadmits : g.Admits (depth + 1) symbol p := ⟨weight_pos_of_pick hg hsource hpick, hhas⟩
    obtain rfl := after_of_pick hpick
    rcases htarget : p.target with kind | next
    · simp only [htarget] at hmake
      obtain ⟨-, hlength⟩ := (hg.sound_of_has hhas).counts kind htarget
      obtain ⟨children, between, hall, hbuild⟩ := andThen_eq_ok_iff.mp hmake
      obtain ⟨horder, hbetween⟩ := inOrder_of_expandAll ih hsource.after hall
      obtain ⟨rfl, rfl, hfill⟩ := of_buildNode hbuild
      obtain ⟨hfills, hsource'⟩ := fills_of_fillParameters hbetween hlength hfill
      refine ⟨⟨p, hadmits, ?_⟩, hsource'⟩
      rw [Production.Makes, htarget]
      exact ⟨rfl, between, horder, hfills⟩
    · simp only [htarget] at hmake
      obtain ⟨hgenerates, hsource'⟩ := ih hsource.after hmake
      refine ⟨⟨p, hadmits, ?_⟩, hsource'⟩
      rw [Production.Makes, htarget]
      exact hgenerates

end Derivation

namespace Grammar

open RandomSource

/-- **Every derived tree belongs to the grammar**: it is generated from the symbol that the
derivation started with and the depth that it was given. -/
theorem generates_of_derive {text : String} {g : Grammar} (hg : compile text = .ok g)
    {start : String} {depth : Nat} {source source' : σ} {d : GrammarArt.Derivation}
    (hsource : DrawsUnit source) (h : g.derive start depth source = (.ok d, source')) :
    g.Generates depth start source d.root source' := by
  unfold derive at h
  split at h
  · cases h
  · obtain ⟨t, between, hexpand, heq⟩ := Derivation.andThen_eq_ok_iff.mp h
    cases heq
    obtain ⟨hgenerates, -⟩ := Derivation.follows_expand (compile_wellFormed hg) depth hsource hexpand
    refine g.ignoresIds_generates depth ?_ hgenerates
    rw [Tree.numbered, Tree.erased_numberFrom]

/-- One number given, two drawn; and a production of no weight, which is not chosen. -/
theorem generates_of_derive_rgb :
    ∃ g : Grammar, compile "S :: S:0 | rgb(0.5):1" = .ok g ∧ DrawsUnit (Replay.mk [] 0) ∧
      g.derive "S" 1 (Replay.mk [] 0) = (.ok ⟨.terminal 0 (.rgb 0.5 (-1) (-1)), 1⟩, ⟨[], 3⟩) ∧
      g.Generates 1 "S" (Replay.mk [] 0) (.terminal 0 (.rgb 0.5 (-1) (-1))) ⟨[], 3⟩ := by
  have hcompile : compile "S :: S:0 | rgb(0.5):1" =
      .ok ⟨⟨"S", [⟨.alias "S", [], 0⟩, ⟨.node .rgb, [.literal 0.5], 1⟩]⟩, []⟩ := by
    decide
  have hdraws : DrawsUnit (Replay.mk [] 0) := by
    have hzero (r : Replay) (h : r.draws = []) (n : Nat) : (after^[n] r).draws = [] := by
      induction n generalizing r with
      | zero => exact h
      | succ n ih => exact ih _ h
    intro n
    have hnext : (next (after^[n] (Replay.mk [] 0))).1 = 0 := by
      show List.getD _ _ _ = _
      rw [hzero _ rfl]
      rfl
    rw [hnext]
    decide
  have hderive : (Grammar.mk ⟨"S", [⟨.alias "S", [], 0⟩, ⟨.node .rgb, [.literal 0.5], 1⟩]⟩
      []).derive "S" 1 (Replay.mk [] 0) = (.ok ⟨.terminal 0 (.rgb 0.5 (-1) (-1)), 1⟩, ⟨[], 3⟩) := by
    decide
  exact ⟨_, hcompile, hdraws, hderive, generates_of_derive hcompile hdraws hderive⟩

end Grammar

end GrammarArt
