import GrammarArt.Proofs.Grammar.Resolution
import GrammarArt.Tree.Printer

/-! # Printed grammars are compiled to themselves

A grammar is printed as one line for each of its rules, `NAME :: production | production | ...`,
where a production is a name, its arguments in parentheses and its weight.  Numbers are printed
as in the text of a tree.  Spaces and tabs may be added around every word (`Grammar.Printed`);
`Grammar.render` is the plainest such text.

Every valid grammar comes back from its print (`compile_printed`).  So compiling loses no
grammar: the valid ones are exactly those that some text denotes.  Whatever is printed is
written in the sense of `Definition.Writes`, since a number is read back from its text, and so
the lines of the print are those a grammar is compiled from.
-/
namespace GrammarArt

open Text Binary32

/-- The text of an argument. -/
def Argument.word : Argument → List Char
  | symbol name => name.toList
  | literal value => (print canonical value).toList

namespace Production

/-- The words of a printed production. -/
def words (p : Production) : List (List Char) :=
  Definition.productionWords p.target.name.toList (p.args.map Argument.word)
    (print canonical p.weight).toList

/-- A production, printed as `name(argument, ...):weight`. -/
def text (p : Production) : List Char :=
  applied p.target.name.toList (p.args.map Argument.word) ++
    ':' :: (print canonical p.weight).toList

end Production

namespace Rule

/-- The words of a printed rule. -/
def words (r : Rule) : List (List Char) :=
  Definition.words r.symbol.toList (r.productions.map Production.words)

/-- A rule, printed as `NAME :: production | ...`. -/
def text (r : Rule) : List Char :=
  r.symbol.toList ++ ' ' :: ':' :: ':' :: ' ' ::
    List.intercalate [' ', '|', ' '] (r.productions.map Production.text)

end Rule

/-- The characters that may be added between printed words. -/
def isGap (c : Char) : Bool := c = ' ' || c = '\t'

namespace Grammar

/-- A text with the words of one rule in each of its lines; the last line may be ended. -/
def Printed (g : Grammar) (text : String) : Prop :=
  ∃ lines, List.Forall₂ (fun r line => Spaced isGap r.words line) g.rules lines ∧
    (text.toList = List.intercalate ['\n'] lines ∨
      text.toList = List.intercalate ['\n'] (lines ++ [[]]))

/-- The printed grammar. -/
def render (g : Grammar) : String :=
  String.ofList (List.intercalate ['\n'] (g.rules.map Rule.text))

end Grammar

/-! ### The plain print -/

theorem isGap_space : ∀ c ∈ [' '], isGap c = true := List.forall_mem_singleton.mpr rfl

/-- Arguments with a comma and a space between them. -/
theorem spaced_applied (name : List Char) (args : List (List Char)) :
    Spaced isGap (Definition.headWords name args) (applied name args) := by
  unfold Definition.headWords applied
  by_cases hnil : args = []
  · rw [if_pos hnil, if_pos hnil]
    exact spaced_singleton
  · rw [if_neg hnil, if_neg hnil]
    have hargs : Spaced isGap (List.intercalate [[',']] (args.map fun arg => [arg]))
        (List.intercalate [',', ' '] args) := by
      refine Spaced.intercalate (List.forall_mem_nil _) isGap_space ?_
      rw [List.forall₂_map_left_iff]
      exact List.forall₂_same.mpr fun arg _ => spaced_singleton
    have hclosed : Spaced isGap (List.intercalate [[',']] (args.map fun arg => [arg]) ++ [[')']])
        (List.intercalate [',', ' '] args ++ [')']) := hargs.append spaced_singleton
    exact spaced_second_separator_iff.mpr ⟨name, _, rfl, spaced_singleton, hclosed⟩

theorem Production.spaced_text (p : Production) : Spaced isGap p.words p.text :=
  (spaced_applied _ _).append (spaced_singleton.cons [':'])

theorem Rule.spaced_text (r : Rule) : Spaced isGap r.words r.text := by
  refine spaced_second_iff.mpr
    ⟨r.symbol.toList ++ [' '], ' ' :: List.intercalate [' ', '|', ' ']
      (r.productions.map Production.text), by simp [Rule.text], ?_, ?_⟩
  · exact Spaced.append spaced_singleton (.stop isGap_space)
  · refine Spaced.widen isGap_space ?_
    refine Spaced.intercalate isGap_space isGap_space ?_
    rw [List.forall₂_map_left_iff, List.forall₂_map_right_iff]
    exact List.forall₂_same.mpr fun p _ => p.spaced_text

theorem Grammar.printed_render (g : Grammar) : g.Printed g.render := by
  refine ⟨g.rules.map Rule.text, ?_, .inl String.toList_ofList⟩
  rw [List.forall₂_map_right_iff]
  exact List.forall₂_same.mpr fun r _ => r.spaced_text

/-! ### What is printed is written -/

theorem Kind.isName_name (kind : Kind) : Definition.isName kind.name.toList = true := by
  cases kind with
  | var v => cases v <;> decide
  | _ => decide

theorem isBlank_of_isGap {c : Char} (h : isGap c = true) : isBlank c = true := by
  rw [isGap, Bool.or_eq_true, decide_eq_true_eq, decide_eq_true_eq] at h
  rcases h with rfl | rfl <;> decide

namespace Grammar.Valid

variable {g : Grammar} {r : Rule} {p : Production}

theorem isName_symbol (hg : g.Valid) {symbol : String} (h : symbol ∈ g.symbols) :
    Definition.isName symbol.toList = true := by
  obtain ⟨r, hr, rfl⟩ := List.mem_map.mp h
  exact (hg.rules r hr).name

theorem isName_target (hg : g.Valid) (hp : p.Resolved g.symbols) :
    Definition.isName p.target.name.toList = true := by
  cases htarget : p.target with
  | node kind => exact kind.isName_name
  | «alias» symbol => exact hg.isName_symbol (hp.reference symbol htarget).1

theorem spelledBy_word (hg : g.Valid) (hp : p.Resolved g.symbols) (hnumbers : p.raw.Sound)
    {a : Argument} (ha : a ∈ p.args) : a.SpelledBy a.word := by
  cases a with
  | symbol name =>
    have hname : name ∈ p.symbols := List.mem_filterMap.mpr ⟨_, ha, rfl⟩
    exact ⟨rfl, hg.isName_symbol (hp.symbols name hname)⟩
  | literal value =>
    have hvalue : value ∈ Argument.literals p.args := List.mem_filterMap.mpr ⟨_, ha, rfl⟩
    have hfinite := hnumbers.literals_finite value hvalue
    exact ⟨read?_print_canonical hfinite, hfinite⟩

theorem spelledBy_words (hg : g.Valid) (hp : p.Resolved g.symbols) (hnumbers : p.raw.Sound) :
    p.raw.SpelledBy p.words := by
  refine ⟨p.args.map Argument.word, _, rfl, hg.isName_target hp, ?_,
    read?_print_canonical hnumbers.weight_finite, hnumbers.weight_finite, hnumbers.weight_nonneg⟩
  rw [List.forall₂_map_right_iff]
  exact List.forall₂_same.mpr fun a ha => hg.spelledBy_word hp hnumbers ha

theorem forall₂_spelledBy (hg : g.Valid) (hr : r ∈ g.rules) :
    List.Forall₂ RawProduction.SpelledBy (r.productions.map Production.raw)
      (r.productions.map Production.words) := by
  have hrule := hg.rules r hr
  rw [List.forall₂_map_left_iff, List.forall₂_map_right_iff]
  exact List.forall₂_same.mpr fun p hp =>
    hg.spelledBy_words (hrule.productions p hp) (hrule.numbers p hp)

/-- A printed rule defines its symbol by its productions. -/
theorem writes_of_spaced (hg : g.Valid) (hr : r ∈ g.rules) {line : List Char}
    (h : Spaced isGap r.words line) :
    Definition.Writes r.symbol (r.productions.map Production.raw) line := by
  have hrule := hg.rules r hr
  refine ⟨hrule.name, fun hnil => hrule.some_production (List.map_eq_nil_iff.mp hnil), _,
    hg.forall₂_spelledBy hr, h.mono fun c => isBlank_of_isGap⟩

/-- A printed rule stands in one line. -/
theorem newline_not_mem (hg : g.Valid) (hr : r ∈ g.rules) {line : List Char}
    (h : Spaced isGap r.words line) : '\n' ∉ line := by
  refine h.not_mem (by decide) fun w hw hmem => ?_
  have hsolid := Definition.solid_words (hg.rules r hr).name (hg.forall₂_spelledBy hr) w hw
  have hblank := hsolid.not_blank '\n' hmem
  revert hblank
  decide

/-- **Whatever prints a grammar writes its rules**, one in each line. -/
theorem writtenIn_of_printed (hg : g.Valid) {text : String} (h : g.Printed text) :
    g.WrittenIn text := by
  obtain ⟨lines, hlines, htext⟩ := h
  have hline : ∀ line ∈ lines, '\n' ∉ line ∧ Definition.isSkipped line = false := by
    intro line hline
    obtain ⟨r, hr, hspaced⟩ := exists_of_mem_right hlines hline
    exact ⟨hg.newline_not_mem hr hspaced, (hg.writes_of_spaced hr hspaced).isSkipped_eq_false⟩
  have hkept : Definition.defining lines = lines := by
    refine List.filter_eq_self.mpr fun line hmem => ?_
    rw [(hline line hmem).2, Bool.not_false]
  have hdefining : Definition.defining (text.toList.splitOn '\n') = lines := by
    rcases htext with htext | htext
    · have hne : lines ≠ [] := ne_nil_of_forall₂ hlines (List.cons_ne_nil _ _)
      rw [htext, List.splitOn_intercalate '\n' (fun line hmem => (hline line hmem).1) hne, hkept]
    · have hlast : ∀ line ∈ lines ++ [[]], '\n' ∉ line := by
        rintro line hmem
        rcases List.mem_append.mp hmem with hmem | hmem
        · exact (hline line hmem).1
        · rw [List.mem_singleton.mp hmem]
          exact List.not_mem_nil
      rw [htext, List.splitOn_intercalate '\n' hlast (by simp), Definition.defining,
        List.filter_append]
      rw [Definition.defining] at hkept
      rw [hkept, List.filter_cons_of_neg (by simp [Definition.isSkipped, trim, trimEnd]),
        List.filter_nil, List.append_nil]
  rw [WrittenIn, hdefining]
  have hmem := (List.forall₂_and_left _ _).mpr ⟨fun r (hr : r ∈ g.rules) => hr, hlines⟩
  exact hmem.imp fun r line h => hg.writes_of_spaced h.1 h.2

end Grammar.Valid

namespace Grammar

/-- **Every valid grammar is compiled from its print**, with whatever spaces and tabs. -/
theorem compile_printed {g : Grammar} (hg : g.Valid) :
    compile g.render = .ok g ∧ ∀ text, g.Printed text → compile text = .ok g := by
  have hcompile : ∀ text, g.Printed text → compile text = .ok g := fun text h =>
    compile_eq_ok_iff.mpr ⟨hg, hg.writtenIn_of_printed h⟩
  exact ⟨hcompile g.render g.printed_render, hcompile⟩

/-- Tabs and spaces everywhere, a negative number, and the end of the last line. -/
theorem compile_printed_two_rules :
    ∃ g : Grammar, g.Valid ∧
      g.render = "E :: sin(E, -0.5):0.25 | Z:1\nZ :: rgb:2" ∧
      compile "E :: sin(E, -0.5):0.25 | Z:1\nZ :: rgb:2" = .ok g ∧
      g.Printed "\tE ::sin ( E\t,-0.5 ) :0.25|  Z:\t1 \nZ\t::rgb : 2\n" ∧
      compile "\tE ::sin ( E\t,-0.5 ) :0.25|  Z:\t1 \nZ\t::rgb : 2\n" = .ok g := by
  let g : Grammar :=
    ⟨⟨"E", [⟨.node .sin, [.symbol "E", .literal (-0.5)], 0.25⟩, ⟨.alias "Z", [], 1⟩]⟩,
      [⟨"Z", [⟨.node .rgb, [], 2⟩]⟩]⟩
  have hrender : g.render = "E :: sin(E, -0.5):0.25 | Z:1\nZ :: rgb:2" := by decide
  have hvalid : g.Valid := by
    have hcompile : compile "E::sin(E,-0.5):0.25|Z:1\nZ::rgb:2" = .ok g := by decide
    exact (compile_eq_ok_iff.mp hcompile).1
  have hprinted : g.Printed "\tE ::sin ( E\t,-0.5 ) :0.25|  Z:\t1 \nZ\t::rgb : 2\n" := by
    refine ⟨["\tE ::sin ( E\t,-0.5 ) :0.25|  Z:\t1 ".toList, "Z\t::rgb : 2".toList],
      .cons ?_ (.cons ?_ .nil), .inr ?_⟩
    · decide
    · decide
    · decide
  obtain ⟨hplain, hspread⟩ := compile_printed hvalid
  exact ⟨g, hvalid, hrender, hrender ▸ hplain, hprinted, hspread _ hprinted⟩

end Grammar

end GrammarArt
