import GrammarArt.Proofs.Binary32.Numeral
import GrammarArt.Proofs.Shader.Rendering

/-! # The names in shader code

The words of a text are its longest runs of letters, digits and underscores.  In the text of a
term, the words that begin with the letter `n` are the names of the nodes that it computes from,
in the order in which they are written (`nodeWords_render`); the functions and the inputs of a
shader have other names, and so do the numbers that are not finite.  So what a line of code uses
can be read off its text.

A text is cut into words at every character that is no part of a name.  That makes the
proof an induction on the term: a sign, a blank or a parenthesis stands between any two of its
parts.
-/
namespace GrammarArt.Shader

open Binary32
open Expression (isNamePart isNamePart_iff)

/-- The words of a text that begin with the letter of node names. -/
def nodeWords (cs : List Char) : List String :=
  ((cs.splitOnP fun c => !isNamePart c).filter fun w => w.head? = some 'n').map String.ofList

/-- The names that a term computes from. -/
def Term.names : Term → List String
  | node id | channel id _ => [nodeName id]
  | point _ | feed _ | literal _ => []
  | negate a | call₁ _ a => a.names
  | infixed _ a b | call₂ _ a b => a.names ++ b.names
  | call₃ _ a b c => a.names ++ (b.names ++ c.names)

/-! ### Words -/

section
variable {cs ds : List Char}

/-- Words do not go on across a character that is no part of a name. -/
theorem nodeWords_append_cons {c : Char} (hc : isNamePart c = false) (cs ds : List Char) :
    nodeWords (cs ++ c :: ds) = nodeWords cs ++ nodeWords ds := by
  rw [nodeWords, List.splitOnP_append_cons cs ds (by rw [hc]; rfl), List.filter_append,
    List.map_append]
  rfl

theorem nodeWords_cons {c : Char} (hc : isNamePart c = false) (cs : List Char) :
    nodeWords (c :: cs) = nodeWords cs :=
  nodeWords_append_cons hc [] cs

theorem mem_of_mem_splitOnP {p : Char → Bool} {w : List Char} {c : Char}
    (hw : w ∈ cs.splitOnP p) (hc : c ∈ w) : c ∈ cs := by
  induction cs generalizing w with
  | nil =>
    rw [List.splitOnP_nil, List.mem_singleton] at hw
    exact hw ▸ hc
  | cons d cs ih =>
    rw [List.splitOnP_cons_eq_if_modifyHead] at hw
    split at hw
    · rcases List.mem_cons.mp hw with rfl | hw
      · cases hc
      · exact List.mem_cons_of_mem d (ih hw hc)
    · obtain ⟨first, rest, hsplit⟩ := List.exists_cons_of_ne_nil (List.splitOnP_ne_nil p cs)
      rw [hsplit] at hw ih
      rcases List.mem_cons.mp hw with rfl | hw
      · rcases List.mem_cons.mp hc with rfl | hc
        · exact List.mem_cons_self
        · exact List.mem_cons_of_mem d (ih List.mem_cons_self hc)
      · exact List.mem_cons_of_mem d (ih (List.mem_cons_of_mem first hw) hc)

theorem nodeWords_eq_nil (h : 'n' ∉ cs) : nodeWords cs = [] := by
  rw [nodeWords, List.map_eq_nil_iff, List.filter_eq_nil_iff]
  intro w hw hhead
  exact h (mem_of_mem_splitOnP hw (List.mem_of_mem_head? (of_decide_eq_true hhead)))

theorem nodeWords_nodeName (id : Nat) : nodeWords (nodeName id).toList = [nodeName id] := by
  have hparts := (isWord_nodeName id).1.isNamePart
  have hwhole : (nodeName id).toList.splitOnP (fun c => !isNamePart c) = [(nodeName id).toList] :=
    List.splitOnP_eq_singleton fun c hc => by rw [hparts c hc]; rfl
  have hhead : (nodeName id).toList.head? = some 'n' := by rw [toList_nodeName]; rfl
  rw [nodeWords, hwhole, List.filter_singleton, hhead]
  simp

theorem nodeWords_function (f : Function) : nodeWords f.text.toList = [] := by
  cases f <;> decide

theorem nodeWords_operator (op : Operator) : nodeWords op.text.toList = [] := by
  cases op <;> decide

end

/-! ### Literals -/

/-- A number that is not finite is written by its name. -/
theorem literalText_of_not_isFinite {v : Float32} (h : v.isFinite = false) :
    literalText v ∈ ["NaN.0", "(NaN.0)", "inf.0", "(-inf.0)"] := by
  cases hnan : v.isNaN with
  | true =>
    simp only [literalText, print, h, hnan, if_true, Bool.false_eq_true, if_false]
    cases negative v <;> decide
  | false =>
    have hinf : v.isInf = true := (isNaN_or_isInf h).resolve_left (by rw [hnan]; decide)
    simp only [literalText, print, h, hnan, hinf, if_true, Bool.false_eq_true, if_false]
    cases negative v <;> decide

theorem isNumberPart_magnitudeText {b : Nat} (hb : b < infinityBits) :
    ∀ c ∈ magnitudeText literal b, IsNumberPart c := by
  obtain ⟨n, hne, hwhole, hfraction, -, htext⟩ := exists_literal_numeral hb
  rcases htext with ⟨htext, -⟩ | htext
  · rw [htext]
    exact (NumberText.of_ofText? (ofText?_plainText hne hwhole hfraction)).parts
  · rw [htext]
    exact (NumberText.of_ofText? (ofText?_scientificText hne hwhole hfraction)).parts

/-- The characters of a finite literal. -/
theorem of_mem_literalText {v : Float32} (h : v.isFinite = true) {c : Char}
    (hc : c ∈ (literalText v).toList) : IsNumberPart c ∨ c ∈ ['(', ')'] := by
  have hparts := isNumberPart_magnitudeText (magnitude_lt h)
  rw [toList_literalText h] at hc
  split at hc
  · simp only [List.cons_append, List.mem_cons, List.mem_append, List.not_mem_nil, or_false] at hc
    rcases hc with rfl | rfl | hc | rfl
    · exact .inr (by decide)
    · exact .inl (.inr (by decide))
    · exact .inl (hparts c hc)
    · exact .inr (by decide)
  · exact .inl (hparts c hc)

/-- A character that no number contains is in no literal but for the names of numbers that are not
finite. -/
theorem not_mem_literalText {c : Char} (hdigit : c.isDigit = false)
    (hpart : c ∉ ['.', '+', '-', 'e', 'E', '(', ')']) {v : Float32} (h : v.isFinite = true) :
    c ∉ (literalText v).toList := by
  intro hc
  rcases of_mem_literalText h hc with (hc | hc) | hc
  · rw [hdigit] at hc
    cases hc
  · exact hpart (List.mem_append_left ['(', ')'] hc)
  · exact hpart (List.mem_append_right ['.', '+', '-', 'e', 'E'] hc)

theorem nodeWords_literalText (v : Float32) : nodeWords (literalText v).toList = [] := by
  cases h : v.isFinite with
  | true => exact nodeWords_eq_nil (not_mem_literalText rfl (by decide) h)
  | false =>
    have hall : ∀ text ∈ ["NaN.0", "(NaN.0)", "inf.0", "(-inf.0)"],
        nodeWords text.toList = [] := by decide
    exact hall _ (literalText_of_not_isFinite h)

theorem newline_not_mem_literalText (v : Float32) : '\n' ∉ (literalText v).toList := by
  cases h : v.isFinite with
  | true => exact not_mem_literalText rfl (by decide) h
  | false =>
    have hall : ∀ text ∈ ["NaN.0", "(NaN.0)", "inf.0", "(-inf.0)"],
        '\n' ∉ text.toList := by decide
    exact hall _ (literalText_of_not_isFinite h)

/-! ### Terms -/

theorem nodeWords_parentheses (cs : List Char) :
    nodeWords ('(' :: (cs ++ [')'])) = nodeWords cs := by
  rw [nodeWords_cons rfl, nodeWords_append_cons rfl]
  exact List.append_nil _

theorem nodeWords_call (f : Function) (cs : List Char) :
    nodeWords (f.text.toList ++ '(' :: (cs ++ [')'])) = nodeWords cs := by
  rw [nodeWords_append_cons rfl, nodeWords_function, nodeWords_append_cons rfl]
  exact List.append_nil _

theorem nodeWords_comma (cs ds : List Char) :
    nodeWords (cs ++ ',' :: ' ' :: ds) = nodeWords cs ++ nodeWords ds := by
  rw [nodeWords_append_cons rfl, nodeWords_cons rfl]

/-- **The node names in the text of a term are those that it computes from.** -/
theorem nodeWords_render (t : Term) (rank : Nat) :
    nodeWords (t.render rank).toList = t.names := by
  induction t generalizing rank with
  | node id => exact nodeWords_nodeName id
  | channel id axis =>
    have htext : ((Term.channel id axis).render rank).toList =
        (nodeName id).toList ++ '.' :: axis.text.toList := by simp [Term.render, toString]
    have haxis : nodeWords axis.text.toList = [] := by cases axis <;> decide
    rw [htext, nodeWords_append_cons rfl, nodeWords_nodeName, haxis]
    rfl
  | point axis =>
    have haxis : 'n' ∉ axis.text.toList := by cases axis <;> decide
    refine nodeWords_eq_nil ?_
    simp [Term.render, toString, pointName, haxis]
  | feed slot =>
    have hdigits (k : Nat) : 'n' ∉ Nat.toDigits 10 k := fun h => by
      have hdigit := isDigits_toDigits k _ h
      cases hdigit
    refine nodeWords_eq_nil ?_
    simp [Term.render, toString, paramsName, hdigits]
  | literal v => exact nodeWords_literalText v
  | negate a iha =>
    have htext : ((Term.negate a).render rank).toList = '-' :: (a.render 3).toList := by
      simp [Term.render]
    rw [htext, nodeWords_cons rfl, iha]
    rfl
  | infixed op a b iha ihb =>
    have hbare : nodeWords ((a.render (Nat.max op.rank 1)).toList ++
        ' ' :: (op.text.toList ++ ' ' :: (b.render (op.rank + 1)).toList)) =
          a.names ++ b.names := by
      rw [nodeWords_append_cons rfl, nodeWords_append_cons rfl, nodeWords_operator, iha, ihb]
      rfl
    rw [Term.names, Term.render]
    simp only [toString]
    split
    · simpa using (nodeWords_parentheses _).trans hbare
    · simpa using hbare
  | call₁ f a iha =>
    have htext : ((Term.call₁ f a).render rank).toList =
        f.text.toList ++ '(' :: ((a.render 0).toList ++ [')']) := by simp [Term.render, toString]
    rw [htext, nodeWords_call, iha]
    rfl
  | call₂ f a b iha ihb =>
    have htext : ((Term.call₂ f a b).render rank).toList = f.text.toList ++ '(' ::
        (((a.render 0).toList ++ ',' :: ' ' :: (b.render 0).toList) ++ [')']) := by
      simp [Term.render, toString]
    rw [htext, nodeWords_call, nodeWords_comma, iha, ihb]
    rfl
  | call₃ f a b c iha ihb ihc =>
    have htext : ((Term.call₃ f a b c).render rank).toList = f.text.toList ++ '(' ::
        (((a.render 0).toList ++ ',' :: ' ' :: ((b.render 0).toList ++ ',' :: ' ' ::
          (c.render 0).toList)) ++ [')']) := by
      simp [Term.render, toString]
    rw [htext, nodeWords_call, nodeWords_comma, nodeWords_comma, iha, ihb, ihc]
    rfl

/-- The text of a term is a part of one line. -/
theorem newline_not_mem_render (t : Term) (rank : Nat) : '\n' ∉ (t.render rank).toList := by
  have hdigits (k : Nat) : '\n' ∉ Nat.toDigits 10 k := fun h => by
    have hdigit := isDigits_toDigits k _ h
    cases hdigit
  have hname (id : Nat) : '\n' ∉ (nodeName id).toList := by
    rw [toList_nodeName]
    simp [hdigits]
  have hfunction (f : Function) : '\n' ∉ f.text.toList := by cases f <;> decide
  have hoperator (op : Operator) : '\n' ∉ op.text.toList := by cases op <;> decide
  have haxis (axis : Axis) : '\n' ∉ axis.text.toList := by cases axis <;> decide
  induction t generalizing rank with
  | node id => exact hname id
  | channel id axis => simp [Term.render, toString, hname, haxis]
  | point axis => simp [Term.render, toString, pointName, haxis]
  | feed slot => simp [Term.render, toString, paramsName, hdigits]
  | literal v => exact newline_not_mem_literalText v
  | negate a iha => simp [Term.render, iha]
  | infixed op a b iha ihb =>
    rw [Term.render]
    simp only [toString]
    split <;> simp [iha, ihb, hoperator]
  | call₁ f a iha => simp [Term.render, toString, hfunction, iha]
  | call₂ f a b iha ihb => simp [Term.render, toString, hfunction, iha, ihb]
  | call₃ f a b c iha ihb ihc => simp [Term.render, toString, hfunction, iha, ihb, ihc]

end GrammarArt.Shader
