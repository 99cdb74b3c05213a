import GrammarArt.Proofs.Expression.Lexing
import GrammarArt.Tree.Printer

/-! # Renderings of a tree

A rendering of a tree is a list of lexemes that the grammar of expressions allows for it:
the name of each node and, in parentheses, its arguments, which are its children and then
its parameters.  A tree has many renderings, since a node without arguments may have empty
parentheses and a parameter may be written with a minus sign.

The canonical text of a tree with finite parameters has the tokens of one of them
(`exists_renders_text`).
-/
namespace GrammarArt

open Expression Text Binary32

namespace Expression

/-- The lexemes of a parameter: its value, or a minus sign and what it is the negation of. -/
inductive RendersParameter : Float32 → List Lexeme → Prop where
  | plain (value : Float32) : RendersParameter value [.number value]
  | negated (value : Float32) : RendersParameter (-value) [.minus, .number value]

/-- The lexemes of a node, its arguments being given by what renders them. -/
inductive RendersNode (kind : Kind) (args : List (List Lexeme → Prop)) :
    List Lexeme → Prop where
  | bare (h : args = []) : RendersNode kind args [.name kind.name]
  | empty (h : args = []) : RendersNode kind args [.name kind.name, .openParen, .closeParen]
  | applied {parts : List (List Lexeme)} (h : args ≠ [])
    (hparts : List.Forall₂ (fun renders part => renders part) args parts) :
    RendersNode kind args
      (.name kind.name :: .openParen :: (List.intercalate [.comma] parts ++ [.closeParen]))

end Expression

namespace Tree

/-- An argument of a node. -/
inductive Argument where
  | child (t : Tree)
  | parameter (value : Float32)

/-- The lexemes of a tree. -/
def Renders : Tree → List Lexeme → Prop :=
  fold fun _ kind parameters children =>
    RendersNode kind (children ++ parameters.map RendersParameter)

/-- Every parameter of the tree is a finite number. -/
def FiniteParameters : Tree → Prop :=
  fold fun _ _ parameters children =>
    (∀ v ∈ parameters, v.isFinite = true) ∧ ∀ finite ∈ children, finite

/-- The arguments of the root: its children and then its parameters. -/
def arguments (t : Tree) : List Argument :=
  t.children.map Argument.child ++ t.parameters.map Argument.parameter

namespace Argument

/-- The lexemes of an argument. -/
def Renders : Argument → List Lexeme → Prop
  | child t => t.Renders
  | parameter value => RendersParameter value

/-- The canonical text of an argument. -/
def text : Argument → List Char
  | child t => t.text
  | parameter value => (Binary32.print Binary32.canonical value).toList

end Argument

theorem renders_eq (t : Tree) :
    t.Renders = RendersNode t.kind (t.arguments.map Argument.Renders) := by
  rw [Renders, fold_eq, arguments, List.map_append, List.map_map, List.map_map]
  rfl

theorem text_eq (t : Tree) :
    t.text = applied t.kind.name.toList (t.arguments.map Argument.text) := by
  rw [text, fold_eq, arguments, List.map_append, List.map_map, List.map_map]
  rfl

theorem finiteParameters_iff {t : Tree} : t.FiniteParameters ↔
    (∀ v ∈ t.parameters, v.isFinite = true) ∧ ∀ c ∈ t.children, c.FiniteParameters := by
  rw [FiniteParameters, fold_eq, List.forall_mem_map]

end Tree

/-! ### The canonical text of a tree -/

theorem Expression.exists_renders_print {v : Float32} (h : v.isFinite = true) :
    ∃ ls, RendersParameter v ls ∧ Lexes (print canonical v).toList ls := by
  obtain ⟨whole, fraction, htext, hne, hwhole, hfraction, hvalue⟩ := exists_print_canonical h
  have hmagnitude := magnitude_lt h
  have hlexes := lexes_plainText hwhole hne hfraction (by
    rw [hvalue]
    exact isFinite_ofMagnitude false hmagnitude)
  rw [hvalue] at hlexes
  have hv := ofMagnitude_magnitude h
  rw [htext]
  cases hsign : negative v with
  | false =>
    rw [hsign] at hv
    rw [hv] at hlexes
    exact ⟨_, .plain v, hlexes⟩
  | true =>
    rw [hsign, ← neg_ofMagnitude_false hmagnitude] at hv
    have hrenders := RendersParameter.negated (ofMagnitude false (magnitude v))
    rw [hv] at hrenders
    exact ⟨_, hrenders, hlexes.sign rfl⟩

/-- What exists for every element exists for all of them in a row. -/
theorem exists_forall₂ {α β : Type} {R S : α → β → Prop} {as : List α}
    (h : ∀ a ∈ as, ∃ b, R a b ∧ S a b) :
    ∃ bs, List.Forall₂ R as bs ∧ List.Forall₂ S as bs := by
  induction as with
  | nil => exact ⟨[], .nil, .nil⟩
  | cons a as ih =>
    obtain ⟨b, hR, hS⟩ := h a List.mem_cons_self
    obtain ⟨bs, hRs, hSs⟩ := ih fun a' ha' => h a' (List.mem_cons_of_mem a ha')
    exact ⟨b :: bs, .cons hR hRs, .cons hS hSs⟩

theorem lexes_applied {name : List Char} (hname : IsName name) {args : List (List Char)}
    {parts : List (List Lexeme)} (hargs : args ≠ []) (h : List.Forall₂ Lexes args parts) :
    Lexes (applied name args) (.name (String.ofList name) :: .openParen ::
      (List.intercalate [.comma] parts ++ [.closeParen])) := by
  have hclose : Lexes [')'] [.closeParen] := lexes_nil.sign rfl
  have hinner := (lexes_intercalate h).append hclose (ends_cons (by decide))
  rw [applied, if_neg hargs]
  exact hname.lexes.append (hinner.sign rfl) (ends_cons (by decide))

namespace Tree

/-- **The tokens of a tree's canonical text are a rendering of the tree.** -/
theorem exists_renders_text {t : Tree} (h : t.FiniteParameters) :
    ∃ ls, t.Renders ls ∧ Lexes t.text ls := by
  induction t using induct with
  | step t ih =>
    obtain ⟨hparameters, hchildren⟩ := finiteParameters_iff.mp h
    have hargs : ∀ arg ∈ t.arguments, ∃ part, arg.Renders part ∧ Lexes arg.text part := by
      intro arg harg
      rcases List.mem_append.mp harg with hmem | hmem
      · obtain ⟨c, hc, rfl⟩ := List.mem_map.mp hmem
        exact ih c hc (hchildren c hc)
      · obtain ⟨v, hv, rfl⟩ := List.mem_map.mp hmem
        exact exists_renders_print (hparameters v hv)
    obtain ⟨parts, hrenders, hlexes⟩ := exists_forall₂ hargs
    have hname := isName_kind t.kind
    rw [renders_eq, text_eq]
    by_cases hnone : t.arguments = []
    · rw [hnone]
      refine ⟨_, .bare rfl, ?_⟩
      have hlex := hname.lexes
      rw [String.ofList_toList] at hlex
      exact hlex
    · have hlex := lexes_applied hname (by simpa using hnone)
        (List.forall₂_map_left_iff.mpr hlexes)
      rw [String.ofList_toList] at hlex
      exact ⟨_, .applied (by simpa using hnone) (List.forall₂_map_left_iff.mpr hrenders), hlex⟩

/-! ### Where the text begins and ends -/

theorem isBlank_head?_text (t : Tree) : ∀ c ∈ t.text.head?, isBlank c = false := by
  intro c hc
  have hname := isName_kind t.kind
  have hhead : t.text.head? = t.kind.name.toList.head? := by
    rw [text_eq, applied]
    split
    · rfl
    · cases hchars : t.kind.name.toList with
      | nil => cases (hchars ▸ hname).1
      | cons d ds => rfl
  rw [hhead] at hc
  exact isBlank_of_isNamePart (hname.isNamePart c (List.mem_of_mem_head? hc))

theorem isBlank_getLast?_text (t : Tree) : ∀ c ∈ t.text.getLast?, isBlank c = false := by
  intro c hc
  rw [text_eq, applied] at hc
  split at hc
  · have hname := isName_kind t.kind
    exact isBlank_of_isNamePart (hname.isNamePart c (List.mem_of_mem_getLast? hc))
  · rw [← List.cons_append, ← List.append_assoc, List.getLast?_concat] at hc
    cases hc
    rfl

/-- The tokens that are read from a tree's canonical text. -/
theorem exists_lex_render {t : Tree} (h : t.FiniteParameters) :
    ∃ tokens, t.Renders (tokens.body.map Token.lexeme) ∧
      lex (String.ofList (trim t.render.toList)) = .ok tokens := by
  obtain ⟨ls, hrenders, hlexes⟩ := exists_renders_text h
  obtain ⟨tokens, rfl, hlex⟩ := hlexes.lex_eq
  refine ⟨tokens, hrenders, ?_⟩
  rw [render, String.toList_ofList, trim_eq_self t.isBlank_head?_text t.isBlank_getLast?_text]
  exact hlex

end Tree

end GrammarArt
