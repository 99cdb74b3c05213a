import GrammarArt.Grammar.Compile
import GrammarArt.Proofs.Derivation.Expansion
import GrammarArt.Proofs.Program.Image
import GrammarArt.Proofs.Tree.Numbering
import GrammarArt.Refinement

/-! # What a feed can change in a derived tree

The productions of a grammar tell which variables its trees can mention, before any tree is
derived: a node is a variable only if some production makes it.  So whoever feeds a derived
tree has to know of those variables alone (`reads_only_usedVariables`); two feeds that agree
on them give the same color at every point and the same pixels in every image, whether the
tree is rendered in steps or its program in a single pass.  Where no production makes a
variable, no feed changes anything.
-/
namespace GrammarArt

theorem Grammar.mem_usedVariables {g : Grammar} {v : Variable} :
    v ∈ g.usedVariables ↔ ∃ r ∈ g.rules, ∃ p ∈ r.productions, p.target = .node (.var v) := by
  simp [usedVariables, Variable.mem_all]

/-! ### Variables that are mentioned -/

namespace Tree

theorem map_snd_postOrder (t : Tree) :
    t.postOrder.map Prod.snd = t.fold fun _ kind _ kinds => kinds.flatten ++ [kind] := by
  induction t using induct with
  | step t ih =>
    rw [postOrder, fold_eq, fold_eq, List.map_append, List.map_flatten, List.map_map]
    exact congrArg (fun kinds => List.flatten kinds ++ [t.kind]) (List.map_congr_left ih)

theorem mentions_numbered {t : Tree} {v : Variable} : t.numbered.Mentions v ↔ t.Mentions v := by
  have h (t : Tree) : t.Mentions v ↔ Kind.var v ∈ t.postOrder.map Prod.snd := by
    simp [Mentions]
  rw [h, h, map_snd_postOrder, map_snd_postOrder, fold_numbered]

end Tree

/-- **A tree that a symbol is expanded to mentions only variables that some production
makes.** -/
theorem Derivation.mentions_of_expand {σ : Type} [RandomSource σ] {g : Grammar} {depth : Nat}
    {symbol : String} {t : Tree} {source source' : σ}
    (h : expand g depth symbol source = (.ok t, source')) {v : Variable} (hv : t.Mentions v) :
    v ∈ g.usedVariables := by
  have hbuilt {symbol : String} {p : Production} {kind : Kind} {children : List Tree} {t : Tree}
      {source source' : σ} (hhas : g.Has symbol p) (htarget : p.target = .node kind)
      (hbuild : buildNode kind p.literals children source = (.ok t, source'))
      (hchildren : ∀ c ∈ children, ∀ v, c.Mentions v → v ∈ g.usedVariables) (v : Variable)
      (hv : t.Mentions v) : v ∈ g.usedVariables := by
    obtain ⟨rfl, rfl, -⟩ := of_buildNode hbuild
    rcases Tree.mentions_iff.mp hv with hkind | ⟨c, hc, hv⟩
    · obtain ⟨ps, hps, hp⟩ := hhas
      obtain ⟨r, hr, -, rfl⟩ := Grammar.exists_rule_of_productions? hps
      rw [Grammar.mem_usedVariables]
      exact ⟨r, hr, p, hp, htarget.trans (congrArg _ hkind)⟩
    · exact hchildren c hc v hv
  refine expand_induct (P := fun _ t => ∀ v, t.Mentions v → v ∈ g.usedVariables) ?_ ?_ ?_ h v hv
  · intro symbol p kind t source source' hhas htarget hbuild
    exact hbuilt hhas htarget hbuild nofun
  · exact fun _ _ => id
  · intro depth symbol p kind children t source source' hhas htarget hchildren hbuild
    exact hbuilt hhas htarget hbuild hchildren

theorem Grammar.mentions_of_derive {σ : Type} [RandomSource σ] {g : Grammar} {start : String}
    {depth : Nat} {source source' : σ} {d : GrammarArt.Derivation}
    (h : g.derive start depth source = (.ok d, source')) {v : Variable}
    (hv : d.root.Mentions v) : v ∈ g.usedVariables := by
  unfold derive at h
  split at h
  · cases h
  · obtain ⟨t, between, hexpand, heq⟩ := Derivation.andThen_eq_ok_iff.mp h
    cases heq
    rw [Tree.mentions_numbered] at hv
    exact Derivation.mentions_of_expand hexpand hv

/-! ### What two feeds show -/

/-- Two feeds show the same of a tree, at every point and in every image. -/
structure Tree.SameUnder (t : Tree) (a b : Feed) : Prop where
  eval_eq : ∀ point, t.eval point a = t.eval point b
  program_eq : ∀ point, t.lower.eval point a = t.lower.eval point b
  step_eq : ∀ r : Refinement, r.step t a = r.step t b
  image_eq : ∀ width height time,
    t.lower.image width height time a = t.lower.image width height time b

/-- All images are made of the colors of the tree. -/
theorem Tree.sameUnder_of_eval_eq {t : Tree} {a b : Feed}
    (h : ∀ point, t.eval point a = t.eval point b) : t.SameUnder a b where
  eval_eq := h
  program_eq point := by rw [eval_lower, eval_lower, h]
  step_eq r := by
    have hpaint : r.paint t a = r.paint t b := by
      funext col row
      rw [Refinement.paint, h]
      rfl
    rw [Refinement.step, Refinement.step, hpaint]
  image_eq width height time := by
    have hraster : t.lower.raster width height time a = t.lower.raster width height time b := by
      simp only [raster_lower, h]
    rw [Program.image, Program.image, hraster]

namespace Grammar

/-- **Of a feed, a derived tree reads the variables that productions make**, and nothing else:
feeds that agree on these show the same, and if there are none, all feeds do. -/
theorem reads_only_usedVariables {σ : Type} [RandomSource σ] {g : Grammar} {start : String}
    {depth : Nat} {source source' : σ} {d : GrammarArt.Derivation}
    (h : g.derive start depth source = (.ok d, source')) :
    (∀ v, d.root.Mentions v → v ∈ g.usedVariables) ∧
    (∀ a b : Feed, (∀ v ∈ g.usedVariables, a.get v = b.get v) → d.root.SameUnder a b) ∧
    (g.usedVariables = [] → d.root.readsVariables = false ∧ d.root.lower.readsVariables = false ∧
      ∀ a b : Feed, d.root.SameUnder a b) := by
  have hmentions (v : Variable) (hv : d.root.Mentions v) : v ∈ g.usedVariables :=
    mentions_of_derive h hv
  have hagree (a b : Feed) (hab : ∀ v ∈ g.usedVariables, a.get v = b.get v) :
      d.root.SameUnder a b :=
    Tree.sameUnder_of_eval_eq (Tree.eval_congr fun v hv => hab v (hmentions v hv))
  refine ⟨hmentions, hagree, fun hnone => ?_⟩
  rw [hnone] at hmentions hagree
  have hreads : d.root.readsVariables = false := by
    rw [Bool.eq_false_iff, ne_eq, Tree.readsVariables_iff]
    rintro ⟨v, hv⟩
    exact absurd (hmentions v hv) List.not_mem_nil
  exact ⟨hreads, (d.root.readsVariables_lower).trans hreads, fun a b => hagree a b nofun⟩

/-- Two variables that are mentioned, one that a production without weight makes, and feeds that
differ in a fourth one. -/
theorem reads_only_usedVariables_of_three :
    ∃ (g : Grammar) (t : Tree),
      compile "A :: C:1\nC :: sum(B, C):1\nB :: low:1 | hi:0\nZ :: bass:1" = .ok g ∧
      g.derive "A" 3 (Replay.mk [] 0) = (.ok ⟨t, 5⟩, ⟨[], 6⟩) ∧
      g.usedVariables = [.low, .hi, .bass] ∧ (∀ v, t.Mentions v → v ∈ g.usedVariables) ∧
      t.SameUnder (Feed.none.set .low 0.5) ((Feed.none.set .low 0.5).set .mid 1) := by
  have hcompile : compile "A :: C:1\nC :: sum(B, C):1\nB :: low:1 | hi:0\nZ :: bass:1" =
      .ok ⟨⟨"A", [⟨.alias "C", [], 1⟩]⟩, [⟨"C", [⟨.node .sum, [.symbol "B", .symbol "C"], 1⟩]⟩,
        ⟨"B", [⟨.node (.var .low), [], 1⟩, ⟨.node (.var .hi), [], 0⟩]⟩,
        ⟨"Z", [⟨.node (.var .bass), [], 1⟩]⟩]⟩ := by
    decide
  have hderive : (Grammar.mk ⟨"A", [⟨.alias "C", [], 1⟩]⟩
      [⟨"C", [⟨.node .sum, [.symbol "B", .symbol "C"], 1⟩]⟩,
        ⟨"B", [⟨.node (.var .low), [], 1⟩, ⟨.node (.var .hi), [], 0⟩]⟩,
        ⟨"Z", [⟨.node (.var .bass), [], 1⟩]⟩]).derive "A" 3 (Replay.mk [] 0) =
      (.ok ⟨.binary 4 .sum (.terminal 0 (.var .low))
        (.binary 3 .sum (.terminal 1 (.var .bass)) (.terminal 2 (.var .bass))), 5⟩, ⟨[], 6⟩) := by
    decide
  obtain ⟨hmentions, hagree, -⟩ := reads_only_usedVariables hderive
  refine ⟨_, _, hcompile, hderive, rfl, hmentions, hagree _ _ ?_⟩
  decide

end Grammar

end GrammarArt
