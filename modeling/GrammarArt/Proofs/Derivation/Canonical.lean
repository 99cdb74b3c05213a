import GrammarArt.Proofs.Binary32.Bound
import GrammarArt.Proofs.Derivation.Expansion
import GrammarArt.Proofs.Expression.Language

/-! # A derived tree and its canonical text

The canonical text of a tree is read back as the tree if the tree is not too deep, is numbered
in post-order and has finite parameters.  A derived tree is all of this.  It has one level more
than the depth it was derived with, at most (`depth_of_expand`).  Its parameters are numbers of
a production, which are finite, or were drawn from a generator, and those are finite as well,
since no bound of a parameter is so large that the arithmetic of drawing could overflow
(`finiteParameters_of_expand`).
-/
namespace GrammarArt

open Binary32

/-! ### Drawn numbers are finite -/

theorem Binary32.below_toFloat32 (word : UInt32) : Below 33 word.toFloat32 := by
  have hword : MantissaBelow 32 (Int.natAbs (word.toNat : Int)) 0 :=
    ⟨32, word.toNat_lt, by decide⟩
  exact (BelowPow.normalize hword (by decide) .positive).packed (by decide) (by decide)

theorem Xoshiro.below_fraction (word : UInt32) : Below 11 (fraction word) := by
  have hunit : Below (-23) (1 / 16777216) := .finite _ _ _ _ ⟨24, by decide, by decide⟩
  exact (below_toFloat32 _).mul hunit (by decide) (by decide)

/-- The bounds of the parameters are small. -/
theorem Kind.below_parameters (kind : Kind) :
    ∀ p ∈ kind.parameters, Below 3 p.low ∧ Below 3 (p.high - p.low) := by
  have hunit : Below 3 (-1) ∧ Below 3 (1 - -1) :=
    ⟨.finite _ _ _ _ ⟨24, by decide, by decide⟩, .finite _ _ _ _ ⟨24, by decide, by decide⟩⟩
  have hfrequency : Below 3 1 ∧ Below 3 (6 - 1) :=
    ⟨.finite _ _ _ _ ⟨24, by decide, by decide⟩, .finite _ _ _ _ ⟨24, by decide, by decide⟩⟩
  have hphase : Below 3 0 ∧ Below 3 (pi - 0) :=
    ⟨.zero _, .finite _ _ _ _ ⟨24, by decide, by decide⟩⟩
  cases kind with
  | bw | level => simpa [parameters] using hunit
  | rgb => simpa [parameters] using hunit
  | sin | cos | tan => simpa [parameters] using ⟨hfrequency, hphase⟩
  | _ => exact nofun

theorem Xoshiro.isFinite_range {kind : Kind} {p : Parameter} (hp : p ∈ kind.parameters)
    (r : Xoshiro) : (RandomSource.range p.low p.high r).1.isFinite = true := by
  obtain ⟨hlow, hwidth⟩ := kind.below_parameters p hp
  have hpart := hwidth.mul (below_fraction r.output) (by decide) (by decide)
  exact ((hlow.mono (by decide)).add hpart (by decide) (by decide)).isFinite

/-! ### Derived trees -/

namespace Derivation

variable {σ : Type} [RandomSource σ] {g : Grammar} {depth : Nat} {symbol : String} {t : Tree}

/-- **A derived tree has at most one level more than the depth it was derived with.** -/
theorem depth_of_expand {source source' : σ}
    (h : expand g depth symbol source = (.ok t, source')) : t.depth ≤ depth + 1 := by
  refine expand_induct (P := fun depth t => t.depth ≤ depth + 1) ?_ ?_ ?_ h
  · intro symbol p kind t source source' hhas htarget hbuild
    obtain ⟨-, hchildren, -⟩ := of_buildNode hbuild
    rw [Tree.depth_le_succ_iff, hchildren]
    exact nofun
  · intro depth t hdepth
    exact Nat.le_succ_of_le hdepth
  · intro depth symbol p kind children t source source' hhas htarget hchildren hbuild
    obtain ⟨-, rfl, -⟩ := of_buildNode hbuild
    exact Tree.depth_le_succ_iff.mpr hchildren

/-- What holds of all given and of all drawn numbers holds of all parameters. -/
theorem forall_fillParameters {P : Float32 → Prop} {parameters : List Parameter}
    (hdrawn : ∀ p ∈ parameters, ∀ source : σ, P (RandomSource.range p.low p.high source).1)
    {literals : List Float32} (hliterals : ∀ v ∈ literals, P v) (source : σ) :
    ∀ v ∈ (fillParameters parameters literals source).1, P v := by
  induction parameters generalizing literals source with
  | nil => exact nofun
  | cons p parameters ih =>
    obtain ⟨hp, hparameters⟩ := List.forall_mem_cons.mp hdrawn
    cases literals with
    | nil => exact List.forall_mem_cons.mpr ⟨hp source, ih hparameters hliterals _⟩
    | cons literal literals =>
      obtain ⟨hliteral, hliterals⟩ := List.forall_mem_cons.mp hliterals
      exact List.forall_mem_cons.mpr ⟨hliteral, ih hparameters hliterals _⟩

/-- **The parameters of a derived tree are finite.** -/
theorem finiteParameters_of_expand (hg : g.WellFormed) {r r' : Xoshiro}
    (h : expand g depth symbol r = (.ok t, r')) : t.FiniteParameters := by
  have hbuilt {symbol : String} {p : Production} {kind : Kind} {children : List Tree} {t : Tree}
      {r r' : Xoshiro} (hhas : g.Has symbol p)
      (hbuild : buildNode kind p.literals children r = (.ok t, r'))
      (hchildren : ∀ c ∈ children, c.FiniteParameters) : t.FiniteParameters := by
    obtain ⟨rfl, rfl, hfill⟩ := of_buildNode hbuild
    refine Tree.finiteParameters_iff.mpr ⟨?_, hchildren⟩
    have hdrawn : ∀ q ∈ t.kind.parameters, ∀ r : Xoshiro,
        (RandomSource.range q.low q.high r).1.isFinite = true :=
      fun q hq r => Xoshiro.isFinite_range hq r
    have hfinite := forall_fillParameters hdrawn (hg.sound_of_has hhas).literals_finite r
    rw [hfill] at hfinite
    exact hfinite
  refine expand_induct (P := fun _ t => t.FiniteParameters) ?_ ?_ ?_ h
  · intro symbol p kind t r r' hhas htarget hbuild
    exact hbuilt hhas hbuild (List.forall_mem_nil _)
  · exact fun _ _ => id
  · intro depth symbol p kind children t r r' hhas htarget hchildren hbuild
    exact hbuilt hhas hbuild hchildren

end Derivation

/-- **The canonical text of a derived tree is read back as the tree.** -/
theorem Grammar.parse_render_root {text : String} {g : Grammar} (hg : compile text = .ok g)
    {start : String} {depth : Nat} {r r' : Xoshiro} {d : GrammarArt.Derivation}
    (h : g.derive start depth r = (.ok d, r')) : Expression.parse d.root.render = .ok d.root := by
  unfold derive at h
  split at h
  · cases h
  · rename_i hdepth
    obtain ⟨t, between, hexpand, heq⟩ := Derivation.andThen_eq_ok_iff.mp h
    cases heq
    have hfinite := Derivation.finiteParameters_of_expand (compile_wellFormed hg) hexpand
    rw [← Tree.finiteParameters_numbered] at hfinite
    obtain ⟨tokens, hrenders, hlex⟩ := t.numbered.exists_lex_render hfinite
    refine Expression.parse_eq_ok_iff_denotes.mpr
      ⟨Expression.denotes_iff.mpr ⟨tokens, hlex, hrenders⟩, ?_, t.ids_numbered⟩
    rw [Tree.depth_numbered]
    have hlevels := Derivation.depth_of_expand hexpand
    unfold Derivation.maxDepth Tree.maxDepth at hdepth
    unfold Tree.maxDepth
    omega

end GrammarArt
