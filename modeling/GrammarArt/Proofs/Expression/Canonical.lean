import GrammarArt.Proofs.Derivation.Canonical
import GrammarArt.Request

/-! # The canonical text of a tree that was built

Whatever a tree was built from, an expression or a grammar, its canonical text is read back as
the tree (`Source.parse_render_of_build`).  For a grammar this is known from the derivation.  An
expression is printed in another way than it was written in general, but with the same tree: the
numbers that are read are finite, since a numeral that is too large is refused, so the parameters
of a tree that was read are finite as well (`finiteParameters_of_parse`).
-/
namespace GrammarArt

open Expression Binary32

namespace Expression

/-! ### Numbers that are read are finite -/

theorem isFinite_of_munch {c : Char} {cs : List Char} {v : Float32} {more : Nat}
    (h : munch c cs = .ok (.number v, more)) : v.isFinite = true := by
  unfold munch at h
  split at h
  · split at h
    · cases h
    · dsimp only at h
      split at h
      · rename_i hfinite
        cases h
        exact hfinite
      · cases h
  · split at h
    · cases h
    · split at h
      · rename_i sign hsign
        cases h
        unfold signOf? at hsign
        split at hsign <;> cases hsign
      · cases h

theorem isFinite_of_scan {cs : List Char} {offset : Nat} {tokens : List Token}
    (h : scan offset cs = .ok tokens) {v : Float32} (hv : .number v ∈ tokens.map Token.lexeme) :
    v.isFinite = true := by
  fun_induction scan offset cs generalizing tokens with
  | case1 offset =>
    cases h
    cases hv
  | case2 offset c cs hblank ih => exact ih h hv
  | case3 offset c cs hblank error before hmunch => cases h
  | case4 offset c cs hblank lexeme more hmunch stop =>
    rename_i ih
    cases hrest : scan stop (cs.drop more) with
    | error e =>
      rw [hrest] at h
      cases h
    | ok rest =>
      rw [hrest] at h
      cases h
      rcases List.mem_cons.mp hv with rfl | hmem
      · exact isFinite_of_munch hmunch
      · exact ih hrest hmem

theorem isFinite_of_lex {s : String} {tokens : Tokens} (h : lex s = .ok tokens) {v : Float32}
    (hv : .number v ∈ tokens.body.map Token.lexeme) : v.isFinite = true := by
  simp only [lex] at h
  cases hscan : scan 0 (Text.bytes s) with
  | error e =>
    rw [hscan] at h
    cases h
  | ok body =>
    rw [hscan] at h
    cases h
    exact isFinite_of_scan hscan hv

/-! ### Trees that are read -/

theorem RendersParameter.isFinite {v : Float32} {ls : List Lexeme} (h : RendersParameter v ls)
    (hnumbers : ∀ value, .number value ∈ ls → value.isFinite = true) : v.isFinite = true := by
  cases h with
  | plain => exact hnumbers v (List.mem_singleton.mpr rfl)
  | negated value =>
    exact isFinite_neg (hnumbers value (List.mem_cons_of_mem _ (List.mem_singleton.mpr rfl)))

/-- The rendering of an argument stands among those of all arguments. -/
theorem exists_part {args : List (List Lexeme → Prop)} {parts : List (List Lexeme)}
    (h : List.Forall₂ (fun renders part => renders part) args parts)
    {renders : List Lexeme → Prop} (hmem : renders ∈ args) :
    ∃ part, renders part ∧ ∀ l ∈ part, l ∈ List.intercalate [.comma] parts := by
  induction h with
  | nil => cases hmem
  | @cons first part args parts hpart hparts ih =>
    have hcons : ∀ l, l ∈ part ∨ l ∈ List.intercalate [.comma] parts →
        l ∈ List.intercalate [.comma] (part :: parts) := by
      intro l hl
      cases parts with
      | nil =>
        rw [List.intercalate_singleton]
        exact hl.resolve_right (List.not_mem_nil)
      | cons part' parts =>
        rw [List.intercalate_cons_cons, List.append_assoc, List.mem_append, List.mem_append]
        exact hl.imp id .inr
    rcases List.mem_cons.mp hmem with rfl | hrest
    · exact ⟨part, hpart, fun l hl => hcons l (.inl hl)⟩
    · obtain ⟨part', hpart', hsub⟩ := ih hrest
      exact ⟨part', hpart', fun l hl => hcons l (.inr (hsub l hl))⟩

theorem RendersNode.exists_part {kind : Kind} {args : List (List Lexeme → Prop)}
    {ls : List Lexeme} (h : RendersNode kind args ls) {renders : List Lexeme → Prop}
    (hmem : renders ∈ args) : ∃ part, renders part ∧ ∀ l ∈ part, l ∈ ls := by
  cases h with
  | bare hnone | empty hnone =>
    rw [hnone] at hmem
    cases hmem
  | applied hsome hparts =>
    obtain ⟨part, hpart, hsub⟩ := Expression.exists_part hparts hmem
    refine ⟨part, hpart, fun l hl => ?_⟩
    exact List.mem_cons_of_mem _ (List.mem_cons_of_mem _ (List.mem_append_left _ (hsub l hl)))

end Expression

/-- A tree whose rendering has finite numbers has finite parameters. -/
theorem Tree.Renders.finiteParameters {t : Tree} {ls : List Lexeme} (h : t.Renders ls)
    (hnumbers : ∀ value, .number value ∈ ls → value.isFinite = true) : t.FiniteParameters := by
  induction t using Tree.induct generalizing ls with
  | step t ih =>
    rw [Tree.renders_eq] at h
    refine Tree.finiteParameters_iff.mpr ⟨fun v hv => ?_, fun c hc => ?_⟩
    · have harg : Tree.Argument.parameter v ∈ t.arguments :=
        List.mem_append_right _ (List.mem_map_of_mem hv)
      obtain ⟨part, hpart, hsub⟩ := h.exists_part (List.mem_map_of_mem harg)
      exact RendersParameter.isFinite hpart fun value hvalue => hnumbers value (hsub _ hvalue)
    · have harg : Tree.Argument.child c ∈ t.arguments :=
        List.mem_append_left _ (List.mem_map_of_mem hc)
      obtain ⟨part, hpart, hsub⟩ := h.exists_part (List.mem_map_of_mem harg)
      exact ih c hc hpart fun value hvalue => hnumbers value (hsub _ hvalue)

namespace Expression

theorem finiteParameters_of_parse {s : String} {t : Tree} (h : parse s = .ok t) :
    t.FiniteParameters := by
  obtain ⟨hdenotes, -⟩ := parse_eq_ok_iff_denotes.mp h
  obtain ⟨tokens, hlex, hrenders⟩ := denotes_iff.mp hdenotes
  exact Tree.Renders.finiteParameters hrenders fun value => isFinite_of_lex hlex

/-- **The canonical text of a tree that was read is read back as the tree.** -/
theorem parse_render_of_parse {s : String} {t : Tree} (h : parse s = .ok t) :
    parse t.render = .ok t := by
  obtain ⟨-, hdepth, hids⟩ := parse_eq_ok_iff_denotes.mp h
  obtain ⟨tokens, hrenders, hlex⟩ := t.exists_lex_render (finiteParameters_of_parse h)
  exact parse_eq_ok_iff_denotes.mpr ⟨denotes_iff.mpr ⟨tokens, hlex, hrenders⟩, hdepth, hids⟩

end Expression

/-- **The canonical text of a tree that was built is read back as the tree.** -/
theorem Source.parse_render_of_build {source : Source} {t : Tree} (h : source.build = .ok t) :
    Expression.parse t.render = .ok t := by
  cases source with
  | expression text =>
    rw [Source.build] at h
    cases hparse : Expression.parse text with
    | error e =>
      rw [hparse] at h
      cases h
    | ok t' =>
      rw [hparse] at h
      cases h
      exact parse_render_of_parse hparse
  | grammar text depth seed =>
    rw [Source.build] at h
    split at h
    · cases h
    · rename_i g hcompile
      split at h
      · cases h
      · rename_i d hderive
        cases h
        exact Grammar.parse_render_root hcompile (Prod.ext hderive rfl)

theorem StartRequest.parse_render_of_build {request : StartRequest} {t : Tree}
    (h : request.build = .ok t) : Expression.parse t.render = .ok t := by
  unfold build at h
  split at h
  · cases h
  · exact Source.parse_render_of_build h

end GrammarArt
