import GrammarArt.Proofs.Json.Lexing

/-! # Written values are read back

The text of a value has the tokens of the value (`WellFormed.lexes_text`), and these are read as
the value, with tokens of anything else behind them (`readValue_tokens`).  Both follow the value:
a list and an object are written and read one item after the other.
-/
namespace GrammarArt.Json

/-! ### The tokens of a value -/

mutual

/-- The tokens of a value. -/
def tokens : Json → List Token
  | null => [.null]
  | bool value => [.bool value]
  | number numeral => [.number numeral]
  | string s => [.string s]
  | list items => .openList :: (itemsTokens items ++ [.closeList])
  | object fields => .openObject :: (fieldsTokens fields ++ [.closeObject])

/-- The tokens of the items of a list. -/
def itemsTokens : List Json → List Token
  | [] => []
  | [item] => tokens item
  | item :: next :: items => tokens item ++ .comma :: itemsTokens (next :: items)

/-- The tokens of the fields of an object. -/
def fieldsTokens : List (Option String × Json) → List Token
  | [] => []
  | [(name, value)] => .string name :: .colon :: tokens value
  | (name, value) :: next :: fields =>
    .string name :: .colon :: (tokens value ++ .comma :: fieldsTokens (next :: fields))

end

/-- A value all of whose numbers are numerals. -/
inductive WellFormed : Json → Prop
  | null : WellFormed null
  | bool (value : Bool) : WellFormed (bool value)
  | number {numeral : List Char} (h : IsNumeral numeral) : WellFormed (number numeral)
  | string (s : Option String) : WellFormed (string s)
  | list {items : List Json} (h : ∀ item ∈ items, WellFormed item) : WellFormed (list items)
  | object {fields : List (Option String × Json)} (h : ∀ field ∈ fields, WellFormed field.2) :
    WellFormed (object fields)

/-! ### Writing -/

theorem lexes_itemsText {items : List Json} (h : ∀ item ∈ items, Lexes item.text item.tokens) :
    Lexes (itemsText items) (itemsTokens items) := by
  induction items with
  | nil =>
    intro rest _
    exact Option.map_id'.symm
  | cons item items ih =>
    obtain ⟨hitem, hitems⟩ := List.forall_mem_cons.mp h
    cases items with
    | nil => exact hitem
    | cons next items =>
      exact hitem.append ((ih hitems).sign ⟨rfl, fun _ => rfl⟩) (ends_cons (by decide))

theorem lexes_fieldsText {fields : List (Option String × Json)}
    (h : ∀ field ∈ fields, Lexes field.2.text field.2.tokens) :
    Lexes (fieldsText fields) (fieldsTokens fields) := by
  have hname (name : Option String) {cs : List Char} {ts : List Token} (hcs : Lexes cs ts) :
      Lexes (stringText name ++ ':' :: cs) (.string name :: .colon :: ts) :=
    (lexes_stringText name).append (hcs.sign ⟨rfl, fun _ => rfl⟩) (ends_cons (by decide))
  induction fields with
  | nil =>
    intro rest _
    exact Option.map_id'.symm
  | cons field fields ih =>
    obtain ⟨hvalue, hfields⟩ := List.forall_mem_cons.mp h
    cases fields with
    | nil => exact hname field.1 hvalue
    | cons next fields =>
      exact hname field.1
        (hvalue.append ((ih hfields).sign ⟨rfl, fun _ => rfl⟩) (ends_cons (by decide)))

/-- **The text of a value has its tokens.** -/
theorem WellFormed.lexes_text {value : Json} (h : value.WellFormed) :
    Lexes value.text value.tokens := by
  have hclose {c : Char} {token : Token} (hsign : isBlank c = false ∧
      ∀ cs, munch c cs = some (token, 0)) : Lexes [c] [token] :=
    Lexes.sign (fun _ _ => Option.map_id'.symm) hsign
  induction h with
  | null => exact lexes_token rfl fun _ _ => rfl
  | bool value =>
    cases value with
    | true => exact lexes_token rfl fun _ _ => rfl
    | false => exact lexes_token rfl fun _ _ => rfl
  | number h => exact h.lexes
  | string s => exact lexes_stringText s
  | list h ih =>
    exact ((lexes_itemsText ih).append (hclose ⟨rfl, fun _ => rfl⟩)
      (ends_cons (by decide))).sign ⟨rfl, fun _ => rfl⟩
  | object h ih =>
    exact ((lexes_fieldsText ih).append (hclose ⟨rfl, fun _ => rfl⟩)
      (ends_cons (by decide))).sign ⟨rfl, fun _ => rfl⟩

/-! ### Reading -/

/-- A value begins with a token that closes nothing. -/
theorem head?_tokens (value : Json) :
    ∃ token, value.tokens.head? = some token ∧ token ≠ .closeList := by
  cases value with
  | null | bool _ | number _ | string _ | list _ | object _ => exact ⟨_, rfl, nofun⟩

theorem length_tokens_pos (value : Json) : 0 < value.tokens.length := by
  obtain ⟨token, htoken, -⟩ := head?_tokens value
  exact List.length_pos_iff.mpr fun hnil => by rw [hnil] at htoken; cases htoken

theorem itemsTokens_cons (item : Json) (items : List Json) :
    ∃ ts, itemsTokens (item :: items) = item.tokens ++ ts := by
  cases items with
  | nil => exact ⟨[], (List.append_nil _).symm⟩
  | cons next items => exact ⟨_, rfl⟩

theorem readValue_list {steps : Nat} {tokens rest : List Token} {items : List Json}
    (hopen : ∀ token ∈ tokens.head?, token ≠ .closeList)
    (hitems : readItems steps tokens = some (items, rest)) :
    readValue (steps + 1) (.openList :: tokens) = some (.list items, rest) := by
  rw [readValue, hitems]
  · rfl
  · rintro rest rfl
    exact hopen _ rfl rfl

theorem readValue_object {steps : Nat} {tokens rest : List Token}
    {fields : List (Option String × Json)} (hopen : ∀ token ∈ tokens.head?, token ≠ .closeObject)
    (hfields : readFields steps tokens = some (fields, rest)) :
    readValue (steps + 1) (.openObject :: tokens) = some (.object fields, rest) := by
  rw [readValue, hfields]
  · rfl
  · rintro rest rfl
    exact hopen _ rfl rfl

mutual

/-- **The tokens of a value are read as the value**, with tokens of anything else behind them. -/
theorem readValue_tokens : ∀ (value : Json) (steps : Nat) (rest : List Token),
    value.tokens.length ≤ steps → readValue steps (value.tokens ++ rest) = some (value, rest)
  | null, _ + 1, _, _ | bool _, _ + 1, _, _ | number _, _ + 1, _, _ | string _, _ + 1, _, _ => rfl
  | list [], _ + 1, _, _ | object [], _ + 1, _, _ => rfl
  | list (item :: items), steps + 1, rest, h => by
    have hlen : (itemsTokens (item :: items)).length < steps := by
      simpa [tokens] using h
    have hread := readItems_tokens (item :: items) steps rest (List.cons_ne_nil _ _) hlen
    rw [tokens, List.cons_append, List.append_assoc]
    refine readValue_list ?_ hread
    obtain ⟨ts, hts⟩ := itemsTokens_cons item items
    obtain ⟨token, htoken, hne⟩ := head?_tokens item
    rw [hts, List.append_assoc, List.head?_append, htoken]
    rintro _ ⟨rfl⟩
    exact hne
  | object ((name, value) :: fields), steps + 1, rest, h => by
    have hlen : (fieldsTokens ((name, value) :: fields)).length < steps := by
      simpa [tokens] using h
    have hread := readFields_tokens ((name, value) :: fields) steps rest (List.cons_ne_nil _ _) hlen
    rw [tokens, List.cons_append, List.append_assoc]
    refine readValue_object ?_ hread
    cases fields with
    | nil | cons _ _ =>
      rintro _ ⟨rfl⟩
      exact nofun

/-- So are those of the items of a list, up to the bracket that closes it. -/
theorem readItems_tokens : ∀ (items : List Json) (steps : Nat) (rest : List Token), items ≠ [] →
    (itemsTokens items).length < steps →
      readItems steps (itemsTokens items ++ .closeList :: rest) = some (items, rest)
  | [item], steps + 1, rest, _, h => by
    have hread := readValue_tokens item steps (.closeList :: rest) (Nat.le_of_lt_succ h)
    rw [itemsTokens, readItems, hread]
  | item :: next :: items, steps + 1, rest, _, h => by
    have hpos := length_tokens_pos item
    rw [itemsTokens, List.length_append, List.length_cons] at h
    have hread := readValue_tokens item steps
      (.comma :: (itemsTokens (next :: items) ++ .closeList :: rest)) (by omega)
    have hitems := readItems_tokens (next :: items) steps rest (List.cons_ne_nil _ _)
      (by omega)
    rw [itemsTokens, List.append_assoc, List.cons_append, readItems, hread]
    simp only [hitems]
    rfl

/-- So are those of the fields of an object, up to the brace that closes it. -/
theorem readFields_tokens : ∀ (fields : List (Option String × Json)) (steps : Nat)
    (rest : List Token), fields ≠ [] → (fieldsTokens fields).length < steps →
      readFields steps (fieldsTokens fields ++ .closeObject :: rest) = some (fields, rest)
  | [(name, value)], steps + 1, rest, _, h => by
    rw [fieldsTokens, List.length_cons, List.length_cons] at h
    have hread := readValue_tokens value steps (.closeObject :: rest) (by omega)
    rw [fieldsTokens, List.cons_append, List.cons_append, readFields, hread]
  | (name, value) :: next :: fields, steps + 1, rest, _, h => by
    rw [fieldsTokens, List.length_cons, List.length_cons, List.length_append,
      List.length_cons] at h
    have hread := readValue_tokens value steps
      (.comma :: (fieldsTokens (next :: fields) ++ .closeObject :: rest)) (by omega)
    have hfields := readFields_tokens (next :: fields) steps rest
      (List.cons_ne_nil _ _) (by omega)
    rw [fieldsTokens, List.cons_append, List.cons_append, List.append_assoc, List.cons_append,
      readFields, hread]
    simp only [hfields]
    rfl

end

/-- **Every value that is written is read back.** -/
theorem read?_render {value : Json} (h : value.WellFormed) : read? value.render = some value := by
  have hlex := h.lexes_text [] ends_nil
  have hread := readValue_tokens value _ [] (Nat.le_refl _)
  rw [List.append_nil] at hlex hread
  rw [read?, render, String.toList_ofList, hlex]
  simp [lex, readTokens, hread]

end GrammarArt.Json
