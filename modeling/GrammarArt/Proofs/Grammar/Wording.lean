import GrammarArt.Grammar.Definition
import GrammarArt.Proofs.Binary32.Numeral
import GrammarArt.Proofs.Expression.Lexing
import GrammarArt.Proofs.Text.Spacing

/-! # The words of a definition

A definition is a row of words: the defined symbol, `::`, and productions with `|` between
them, each of them a name, its arguments in parentheses if it has any, `:` and a weight.  A word
is a name, a number or one of these signs.  Which words stand for a production is said by
`RawProduction.SpelledBy`; a number may be spelled in any way in which it is read.  Blank
characters may surround every word (`RawProduction.WrittenAs`, `Definition.Writes`).

Names and numbers contain neither blank characters nor signs (`Plain`), so all words are solid,
and a sign occurs in a text exactly where it is a word of its own.
-/
namespace GrammarArt

open Text Binary32

/-! ### Spelling -/

/-- A word that stands for an argument. -/
def Argument.SpelledBy : Argument → List Char → Prop
  | symbol name, w => w = name.toList ∧ Definition.isName w = true
  | literal value, w => read? w = some value ∧ value.isFinite = true

namespace Definition

/-- The words of a name and its arguments; a name without arguments stands alone. -/
def headWords (name : List Char) (args : List (List Char)) : List (List Char) :=
  if args = [] then [name]
  else name :: ['('] :: (List.intercalate [[',']] (args.map fun arg => [arg]) ++ [[')']])

/-- The words of a production. -/
def productionWords (name : List Char) (args : List (List Char)) (weight : List Char) :
    List (List Char) :=
  headWords name args ++ [[':'], weight]

/-- The words of a definition. -/
def words (symbol : List Char) (productions : List (List (List Char))) : List (List Char) :=
  symbol :: [':', ':'] :: List.intercalate [['|']] productions

end Definition

namespace RawProduction

/-- Words that stand for a production. -/
def SpelledBy (p : RawProduction) (ws : List (List Char)) : Prop :=
  ∃ args weight, ws = Definition.productionWords p.name.toList args weight ∧
    Definition.isName p.name.toList = true ∧ List.Forall₂ Argument.SpelledBy p.args args ∧
    read? weight = some p.weight ∧ p.weight.isFinite = true ∧ 0 ≤ p.weight

/-- A text that stands for a production. -/
def WrittenAs (p : RawProduction) (cs : List Char) : Prop :=
  ∃ ws, p.SpelledBy ws ∧ Spaced isBlank ws cs

end RawProduction

/-- A text that defines a symbol by productions. -/
def Definition.Writes (symbol : String) (ps : List RawProduction) (cs : List Char) : Prop :=
  isName symbol.toList = true ∧ ps ≠ [] ∧
    ∃ wss, List.Forall₂ RawProduction.SpelledBy ps wss ∧
      Spaced isBlank (words symbol.toList wss) cs

/-! ### Names and numbers -/

/-- The signs in a head. -/
def headSigns : List Char := ['(', ',', ')']

/-- The signs in a production. -/
def productionSigns : List Char := headSigns ++ [':']

/-- All signs between words. -/
def separators : List Char := productionSigns ++ ['|']

/-- A word without blank characters and separators. -/
structure Plain (w : List Char) : Prop extends Solid w where
  apart : ∀ c ∈ w, c ∉ separators

theorem Plain.of_isName {w : List Char} (h : Definition.isName w = true) : Plain w := by
  have hparts : ∀ c ∈ w, Expression.isNamePart c = true := by
    cases w with
    | nil => exact nofun
    | cons c cs =>
      simp only [Definition.isName, Bool.and_eq_true] at h
      refine List.forall_mem_cons.mpr ⟨Expression.isNamePart_iff.mpr (.inl h.1), ?_⟩
      exact List.all_eq_true.mp h.2
  refine ⟨⟨?_, fun c hc => Expression.isBlank_of_isNamePart (hparts c hc)⟩, fun c hc hsep => ?_⟩
  · rintro rfl
    cases h
  · have hnot : separators.all (fun c => !Expression.isNamePart c) = true := by decide
    have hpart := List.all_eq_true.mp hnot c hsep
    rw [hparts c hc] at hpart
    cases hpart

theorem Plain.of_numberText {w : List Char} (h : NumberText w) : Plain w := by
  obtain ⟨c, hc, -⟩ := h.start
  refine ⟨⟨?_, fun d hd => ?_⟩, fun d hd hsep => ?_⟩
  · rintro rfl
    cases hc
  · rcases h.parts d hd with hdigit | hsign
    · exact Expression.isBlank_of_isNamePart (Expression.isNamePart_iff.mpr (.inr hdigit))
    · have hblank : ['.', '+', '-', 'e', 'E'].all (fun c => !isBlank c) = true := by decide
      simpa using List.all_eq_true.mp hblank d hsign
  · have hnot : separators.all (fun c => !c.isDigit && c ∉ ['.', '+', '-', 'e', 'E']) = true := by
      decide
    have hd' := List.all_eq_true.mp hnot d hsep
    simp only [Bool.and_eq_true, Bool.not_eq_true', decide_eq_true_eq] at hd'
    rcases h.parts d hd with hdigit | hsign
    · exact absurd hdigit (Bool.eq_false_iff.mp hd'.1)
    · exact hd'.2 hsign

/-- No text is both a number and a name. -/
theorem isName_eq_false {w : List Char} (h : NumberText w) : Definition.isName w = false := by
  obtain ⟨c, hc, hstart⟩ := h.start
  cases w with
  | nil => cases hc
  | cons d ds =>
    cases hc
    have hnot : Expression.isNameStart c = false := by
      rcases hstart with hdigit | hsign
      · by_contra hname
        rw [Bool.not_eq_false] at hname
        rw [Expression.isDigit_of_isNameStart hname] at hdigit
        cases hdigit
      · have hsigns : ['.', '+', '-'].all (fun c => !Expression.isNameStart c) = true := by decide
        simpa using List.all_eq_true.mp hsigns c hsign
    show (Expression.isNameStart c && _) = false
    rw [hnot, Bool.false_and]

theorem Argument.SpelledBy.plain {a : Argument} {w : List Char} (h : a.SpelledBy w) : Plain w := by
  cases a with
  | symbol name => exact .of_isName h.2
  | literal value => exact .of_numberText (.of_read? h.1 h.2)

theorem plain_of_spelled {args : List Argument} {ws : List (List Char)}
    (h : List.Forall₂ Argument.SpelledBy args ws) : ∀ w ∈ ws, Plain w := by
  induction h with
  | nil => exact nofun
  | cons hw _ ih => exact List.forall_mem_cons.mpr ⟨hw.plain, ih⟩

/-! ### All words of a production -/

theorem exists_of_mem_right {α β : Type} {R : α → β → Prop} {as : List α} {bs : List β}
    (h : List.Forall₂ R as bs) {b : β} (hb : b ∈ bs) : ∃ a ∈ as, R a b := by
  induction h with
  | nil => cases hb
  | cons hab _ ih =>
    rcases List.mem_cons.mp hb with rfl | hb
    · exact ⟨_, List.mem_cons_self, hab⟩
    · obtain ⟨a, ha, hR⟩ := ih hb
      exact ⟨a, List.mem_cons_of_mem _ ha, hR⟩

theorem ne_nil_of_forall₂ {α β : Type} {R : α → β → Prop} {as : List α} {bs : List β}
    (h : List.Forall₂ R as bs) (hne : as ≠ []) : bs ≠ [] := by
  rintro rfl
  exact hne (List.forall₂_nil_right_iff.mp h)

theorem mem_intercalate {α : Type} {sep a : α} {ass : List (List α)}
    (h : a ∈ List.intercalate [sep] ass) : a = sep ∨ ∃ as ∈ ass, a ∈ as := by
  induction ass with
  | nil => cases h
  | cons as ass ih =>
    cases ass with
    | nil =>
      rw [List.intercalate_singleton] at h
      exact .inr ⟨as, List.mem_cons_self, h⟩
    | cons as' ass =>
      rw [List.intercalate_cons_cons, List.append_assoc, List.mem_append,
        List.mem_append, List.mem_singleton] at h
      rcases h with hfirst | hsep | hrest
      · exact .inr ⟨as, List.mem_cons_self, hfirst⟩
      · exact .inl hsep
      · rcases ih hrest with hsep | ⟨bs, hbs, ha⟩
        · exact .inl hsep
        · exact .inr ⟨bs, List.mem_cons_of_mem as hbs, ha⟩

namespace Definition

theorem mem_arguments {w : List Char} {args : List (List Char)}
    (h : w ∈ List.intercalate [[',']] (args.map fun arg => [arg])) : w = [','] ∨ w ∈ args := by
  rcases mem_intercalate h with hsep | ⟨ws, hws, hw⟩
  · exact .inl hsep
  · obtain ⟨arg, harg, rfl⟩ := List.mem_map.mp hws
    rw [List.mem_singleton.mp hw]
    exact .inr harg

/-- A word of a head is a name, an argument or a sign. -/
theorem mem_headWords {name w : List Char} {args : List (List Char)}
    (h : w ∈ headWords name args) : w ∈ name :: args ∨ ∃ c ∈ headSigns, w = [c] := by
  unfold headWords at h
  split at h
  · rw [List.mem_singleton] at h
    exact .inl (h ▸ List.mem_cons_self)
  · rw [List.mem_cons, List.mem_cons, List.mem_append, List.mem_singleton] at h
    rcases h with rfl | rfl | hargs | rfl
    · exact .inl List.mem_cons_self
    · exact .inr ⟨'(', by decide, rfl⟩
    · rcases mem_arguments hargs with rfl | harg
      · exact .inr ⟨',', by decide, rfl⟩
      · exact .inl (List.mem_cons_of_mem name harg)
    · exact .inr ⟨')', by decide, rfl⟩

/-- A word of a head is a word without signs, or a sign. -/
theorem plain_or_sign_of_mem_headWords {name w : List Char} {args : List (List Char)}
    (hname : Plain name) (hargs : ∀ arg ∈ args, Plain arg) (h : w ∈ headWords name args) :
    Plain w ∨ ∃ c ∈ headSigns, w = [c] := by
  rcases mem_headWords h with hmem | hsign
  · exact .inl (List.forall_mem_cons.mpr ⟨hname, hargs⟩ w hmem)
  · exact .inr hsign

end Definition

/-- The signs are words without blank characters. -/
theorem solid_of_sign {c : Char} (hc : c ∈ separators) : Solid [c] := by
  have hblank : separators.all (fun c => !isBlank c) = true := by decide
  exact solid_singleton (by simpa using List.all_eq_true.mp hblank c hc)

/-- A sign does not occur between words of which it is none. -/
theorem not_mem_of_spaced {ws : List (List Char)} {cs : List Char} {sign : Char}
    {signs : List Char} (h : Spaced isBlank ws cs) (hsign : sign ∈ separators) (hnot : sign ∉ signs)
    (hws : ∀ w ∈ ws, Plain w ∨ ∃ c ∈ signs, w = [c]) : sign ∉ cs := by
  obtain ⟨-, hblank⟩ := solid_of_sign hsign
  refine h.not_mem (hblank sign List.mem_cons_self) fun w hw hmem => ?_
  rcases hws w hw with hplain | ⟨c, hc, rfl⟩
  · exact hplain.apart sign hmem hsign
  · rw [List.mem_singleton] at hmem
    exact hnot (hmem ▸ hc)

theorem Text.Spaced.not_mem_of_plain {w cs : List Char} {sign : Char}
    (h : Spaced isBlank [w] cs) (hsign : sign ∈ separators) (hw : Plain w) : sign ∉ cs :=
  not_mem_of_spaced h hsign List.not_mem_nil
    (List.forall_mem_singleton.mpr (.inl hw))

namespace RawProduction.SpelledBy

variable {p : RawProduction} {ws : List (List Char)}

/-- A word of a production is a word without signs, or a sign. -/
theorem plain_or_sign (h : p.SpelledBy ws) :
    ∀ w ∈ ws, Plain w ∨ ∃ c ∈ productionSigns, w = [c] := by
  obtain ⟨args, weight, rfl, hname, hargs, hweight, hfinite, -⟩ := h
  intro w hw
  rw [Definition.productionWords, List.mem_append, List.mem_pair] at hw
  rcases hw with hhead | rfl | rfl
  · rcases Definition.plain_or_sign_of_mem_headWords (.of_isName hname) (plain_of_spelled hargs)
      hhead with hplain | ⟨c, hc, hw⟩
    · exact .inl hplain
    · exact .inr ⟨c, List.mem_append_left _ hc, hw⟩
  · exact .inr ⟨':', by decide, rfl⟩
  · exact .inl (.of_numberText (.of_read? hweight hfinite))

theorem solid (h : p.SpelledBy ws) : ∀ w ∈ ws, Solid w := by
  intro w hw
  rcases h.plain_or_sign w hw with hplain | ⟨c, hc, rfl⟩
  · exact hplain.toSolid
  · exact solid_of_sign (List.mem_append_left _ hc)

end RawProduction.SpelledBy

namespace RawProduction.WrittenAs

variable {p : RawProduction} {cs : List Char}

theorem of_trim (h : p.WrittenAs (trim cs)) : p.WrittenAs cs := by
  obtain ⟨ws, hws, hspaced⟩ := h
  exact ⟨ws, hws, hspaced.of_trim⟩

theorem trim (h : p.WrittenAs cs) : p.WrittenAs (trim cs) := by
  obtain ⟨ws, hws, hspaced⟩ := h
  exact ⟨ws, hws, (spaced_trim_iff hws.solid).mpr hspaced⟩

theorem trim_ne_nil (h : p.WrittenAs cs) : Text.trim cs ≠ [] := by
  obtain ⟨ws, hws, hspaced⟩ := h
  refine hspaced.trim_ne_nil hws.solid ?_
  obtain ⟨args, weight, rfl, -⟩ := hws
  simp [Definition.productionWords]

end RawProduction.WrittenAs

/-- All words of productions, and the bars between them. -/
theorem solid_productions {ps : List RawProduction} {wss : List (List (List Char))}
    (h : List.Forall₂ RawProduction.SpelledBy ps wss) :
    ∀ w ∈ List.intercalate [['|']] wss, Solid w := by
  intro w hw
  rcases mem_intercalate hw with rfl | ⟨ws, hws, hmem⟩
  · exact solid_of_sign (by decide)
  · obtain ⟨p, -, hp⟩ := exists_of_mem_right h hws
    exact hp.solid w hmem

end GrammarArt
