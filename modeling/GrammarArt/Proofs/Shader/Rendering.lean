import GrammarArt.Proofs.Shader.Lexing
import GrammarArt.Shader.Code

/-! # Tokens of shader code

The text of a term is cut into the tokens of the term (`Term.lexes_render`) and the text of a
statement into those of the statement (`Statement.lexes_render`).  A number is written as a
literal of its magnitude, with a minus sign in front of it if the number is negative.
-/
namespace GrammarArt.Shader

open Text Binary32
open GrammarArt.Shader.Language
open Expression (Ends ends_nil ends_cons)

/-- Every literal of a term is a finite number. -/
def Term.Finite : Term → Prop
  | node _ | channel _ _ | point _ | feed _ => True
  | literal v => v.isFinite = true
  | negate a => a.Finite
  | infixed _ a b => a.Finite ∧ b.Finite
  | call₁ _ a => a.Finite
  | call₂ _ a b => a.Finite ∧ b.Finite
  | call₃ _ a b c => a.Finite ∧ b.Finite ∧ c.Finite

/-- The tokens of a term where only operators of at least some rank may stand without
parentheses. -/
def Term.tokens : Term → Nat → List Token
  | node id, _ => [.word (nodeName id)]
  | channel id axis, _ => [.word (nodeName id), .sign ".", .word axis.text]
  | point axis, _ => [.word pointName, .sign ".", .word axis.text]
  | feed slot, _ => [.word paramsName, .sign ".", .word "vars", .sign "[", .whole (slot / 4),
      .sign "]", .sign "[", .whole (slot % 4), .sign "]"]
  | literal v, _ =>
    let digits := Token.float (ofMagnitude false (magnitude v))
    if negative v then [.sign "(", .sign "-", digits, .sign ")"] else [digits]
  | negate a, _ => .sign "-" :: a.tokens 3
  | infixed op a b, rank =>
    let bare := a.tokens (Nat.max op.rank 1) ++ .sign op.text :: b.tokens (op.rank + 1)
    if op.rank < rank then .sign "(" :: (bare ++ [.sign ")"]) else bare
  | call₁ f a, _ => .word f.text :: .sign "(" :: (a.tokens 0 ++ [.sign ")"])
  | call₂ f a b, _ =>
    .word f.text :: .sign "(" :: (a.tokens 0 ++ .sign "," :: (b.tokens 0 ++ [.sign ")"]))
  | call₃ f a b c, _ => .word f.text :: .sign "(" :: (a.tokens 0 ++ .sign "," ::
      (b.tokens 0 ++ .sign "," :: (c.tokens 0 ++ [.sign ")"])))

/-- The tokens of a statement. -/
def Statement.tokens (s : Statement) : List Token :=
  .word "let" :: .word (nodeName s.id) :: .sign ":" :: .word vectorType :: .sign "=" ::
    (s.value.tokens 0 ++ [.sign ";"])

/-! ### Names -/

theorem toList_nodeName (id : Nat) : (nodeName id).toList = 'n' :: Nat.toDigits 10 id := by
  simp [nodeName, toString]

theorem isWord_nodeName (id : Nat) : IsWord (nodeName id).toList := by
  rw [toList_nodeName]
  refine ⟨⟨rfl, List.all_eq_true.mpr ?_⟩, by simp⟩
  rw [List.forall_mem_cons]
  exact ⟨rfl, fun c hc => Expression.isNamePart_iff.mpr (.inr (isDigits_toDigits id c hc))⟩

theorem isWord_axis (axis : Axis) : IsWord axis.text.toList := by
  cases axis with
  | x | y | z => exact ⟨⟨rfl, rfl⟩, by decide⟩

theorem lexes_function (f : Function) : Lexes f.text.toList [.word f.text] := by
  cases f with
  | vec3 => exact lexes_vectorType
  | _ => exact IsWord.lexes ⟨⟨rfl, rfl⟩, by decide⟩

/-! ### Punctuation -/

variable {cs ds : List Char} {ts us : List Token}

theorem lexes_close (h : Lexes cs ts) : Lexes (cs ++ [')']) (ts ++ [.sign ")"]) :=
  h.append (lexes_nil.sign (by decide)) (ends_cons (by decide))

theorem lexes_parentheses (h : Lexes cs ts) :
    Lexes ('(' :: (cs ++ [')'])) (.sign "(" :: (ts ++ [.sign ")"])) :=
  (lexes_close h).sign (by decide)

theorem lexes_comma (hcs : Lexes cs ts) (hds : Lexes ds us) :
    Lexes (cs ++ ',' :: ' ' :: ds) (ts ++ .sign "," :: us) :=
  hcs.append (hds.space.sign (by decide)) (ends_cons (by decide))

theorem lexes_call (f : Function) (h : Lexes cs ts) :
    Lexes (f.text.toList ++ '(' :: cs) (.word f.text :: .sign "(" :: ts) :=
  (lexes_function f).append (h.sign (by decide)) (ends_cons (by decide))

theorem lexes_brackets (h : Lexes cs ts) (hds : Lexes ds us) :
    Lexes ('[' :: (cs ++ ']' :: ds)) (.sign "[" :: (ts ++ .sign "]" :: us)) :=
  (h.append (hds.sign (by decide)) (ends_cons (by decide))).sign (by decide)

/-! ### Terms -/

theorem toList_literalText {v : Float32} (h : v.isFinite = true) : (literalText v).toList =
    if negative v then '(' :: ('-' :: magnitudeText literal (magnitude v) ++ [')'])
    else magnitudeText literal (magnitude v) := by
  rw [literalText, if_pos h, print, isNaN_eq_false h, isInf_eq_false h]
  cases negative v with
  | false => simp
  | true => simp [toString]

theorem lexes_literalText {v : Float32} (h : v.isFinite = true) (rank : Nat) :
    Lexes (literalText v).toList ((Term.literal v).tokens rank) := by
  have hdigits := lexes_magnitudeText (magnitude_lt h)
  rw [toList_literalText h, Term.tokens]
  cases negative v with
  | false => exact hdigits
  | true => exact lexes_parentheses (hdigits.sign (by decide))

theorem lexes_feed (slot rank : Nat) :
    Lexes ((Term.feed slot).render rank).toList ((Term.feed slot).tokens rank) := by
  have hinner := lexes_brackets (lexes_whole (slot % 4)) lexes_nil
  have hitems := lexes_brackets (lexes_whole (slot / 4)) hinner
  have hparams : IsWord ['p', 'a', 'r', 'a', 'm', 's'] := ⟨⟨rfl, rfl⟩, by decide⟩
  have hvars : IsWord ['v', 'a', 'r', 's'] := ⟨⟨rfl, rfl⟩, by decide⟩
  have hblock : Lexes "params.vars".toList [.word paramsName, .sign ".", .word "vars"] :=
    lexes_member hparams hvars
  have htext : ((Term.feed slot).render rank).toList = "params.vars".toList ++ '[' ::
      (Nat.toDigits 10 (slot / 4) ++ ']' :: '[' :: (Nat.toDigits 10 (slot % 4) ++ [']'])) := by
    simp [Term.render, toString, paramsName]
  rw [htext]
  exact hblock.append hitems (ends_cons (by decide))

/-- **The text of a term has the tokens of the term.** -/
theorem Term.lexes_render {t : Term} (h : t.Finite) (rank : Nat) :
    Lexes (t.render rank).toList (t.tokens rank) := by
  induction t generalizing rank with
  | node id =>
    have hname := (isWord_nodeName id).lexes
    rw [String.ofList_toList] at hname
    exact hname
  | channel id axis =>
    have htext : ((channel id axis).render rank).toList =
        (nodeName id).toList ++ '.' :: axis.text.toList := by simp [render, toString]
    have hmember := lexes_member (isWord_nodeName id) (isWord_axis axis)
    rw [String.ofList_toList, String.ofList_toList] at hmember
    rw [htext]
    exact hmember
  | point axis =>
    have htext : ((point axis).render rank).toList =
        pointName.toList ++ '.' :: axis.text.toList := by simp [render, toString]
    have hpoint : IsWord pointName.toList := ⟨⟨rfl, rfl⟩, by decide⟩
    have hmember := lexes_member hpoint (isWord_axis axis)
    rw [String.ofList_toList, String.ofList_toList] at hmember
    rw [htext]
    exact hmember
  | feed slot => exact lexes_feed slot rank
  | literal v => exact lexes_literalText h rank
  | negate a iha =>
    have htext : ((negate a).render rank).toList = '-' :: (a.render 3).toList := by
      simp [render]
    rw [htext]
    exact (iha h 3).sign (by decide)
  | infixed op a b iha ihb =>
    have hbare := (iha h.1 (Nat.max op.rank 1)).append ((ihb h.2 (op.rank + 1)).operator op)
      (ends_cons (by decide))
    rw [render, tokens]
    simp only [toString]
    split
    · simpa using lexes_parentheses hbare
    · simpa using hbare
  | call₁ f a iha =>
    have htext : ((call₁ f a).render rank).toList =
        f.text.toList ++ '(' :: ((a.render 0).toList ++ [')']) := by simp [render, toString]
    rw [htext]
    exact lexes_call f (lexes_close (iha h 0))
  | call₂ f a b iha ihb =>
    have htext : ((call₂ f a b).render rank).toList = f.text.toList ++ '(' ::
        ((a.render 0).toList ++ ',' :: ' ' :: ((b.render 0).toList ++ [')'])) := by
      simp [render, toString]
    rw [htext]
    exact lexes_call f (lexes_comma (iha h.1 0) (lexes_close (ihb h.2 0)))
  | call₃ f a b c iha ihb ihc =>
    have htext : ((call₃ f a b c).render rank).toList = f.text.toList ++ '(' ::
        ((a.render 0).toList ++ ',' :: ' ' :: ((b.render 0).toList ++ ',' :: ' ' ::
          ((c.render 0).toList ++ [')']))) := by
      simp [render, toString]
    obtain ⟨ha, hb, hc⟩ := h
    rw [htext]
    exact lexes_call f (lexes_comma (iha ha 0) (lexes_comma (ihb hb 0) (lexes_close (ihc hc 0))))

/-! ### Statements -/

theorem Statement.toList_render (s : Statement) : s.render.toList =
    ' ' :: ' ' :: ' ' :: ' ' :: ("let".toList ++ ' ' :: ((nodeName s.id).toList ++ ':' :: ' ' ::
      (vectorType.toList ++ ' ' :: '=' :: ' ' :: ((s.value.render 0).toList ++ [';', '\n'])))) := by
  simp [render, toString, vectorType, Function.text]

/-- **The text of a statement has the tokens of the statement.** -/
theorem Statement.lexes_render {s : Statement} (h : s.value.Finite) :
    Lexes s.render.toList s.tokens := by
  have hlet : IsWord "let".toList := ⟨⟨rfl, rfl⟩, by decide⟩
  have hend : Lexes [';', '\n'] [.sign ";"] := (lexes_nil.blank rfl).sign (by decide)
  have hvalue := ((Term.lexes_render h 0).append hend (ends_cons (by decide))).assign
  have htype := (lexes_vectorType.append hvalue (ends_cons (by decide))).space.sign
    (show IsSign ':' by decide)
  have hname := ((isWord_nodeName s.id).lexes.append htype (ends_cons (by decide))).space
  have hline := hlet.lexes.append hname (ends_cons (by decide))
  rw [String.ofList_toList, String.ofList_toList] at hline
  rw [toList_render]
  exact hline.space.space.space.space

/-- **The text of some statements has the tokens of one statement behind the other.** -/
theorem lexes_statements {ss : List Statement} (h : ∀ s ∈ ss, s.value.Finite) :
    Lexes (String.join (ss.map Statement.render)).toList (ss.flatMap Statement.tokens) := by
  rw [String.toList_join]
  induction ss with
  | nil => exact lexes_nil
  | cons s ss ih =>
    obtain ⟨hs, hss⟩ := List.forall_mem_cons.mp h
    rw [List.map_cons, List.flatMap_cons, List.flatMap_cons]
    refine (Statement.lexes_render hs).append (ih hss) ?_
    cases ss with
    | nil => exact ends_nil
    | cons s' ss =>
      rw [List.map_cons, List.flatMap_cons, Statement.toList_render]
      exact ends_cons (by decide)

/-- The tokens of the code of a tree. -/
theorem scan_codeText {t : Tree} (h : ∀ s ∈ t.code, s.value.Finite) :
    scan t.codeText.toList = some (t.code.flatMap Statement.tokens) := by
  have hscan := lexes_statements h [] ends_nil
  rw [List.append_nil, scan] at hscan
  rw [Tree.codeText, hscan]
  simp

end GrammarArt.Shader
