import GrammarArt.Json.Token

/-! # Reading JSON

    value   =  null | true | false | number | string | "[" [ items ] "]" | "{" [ fields ] "}"
    items   =  value { "," value }
    fields  =  string ":" value { "," string ":" value }

A reader of tokens returns what it read and the tokens left.  It is given a bound on the
number of steps in a row; no text needs more of them than it has tokens.
-/
namespace GrammarArt.Json

mutual

/-- A value. -/
def readValue : (steps : Nat) → List Token → Option (Json × List Token)
  | 0, _ => none
  | _ + 1, [] => none
  | steps + 1, token :: tokens =>
    match token with
    | .null => some (.null, tokens)
    | .bool value => some (.bool value, tokens)
    | .number numeral => some (.number numeral, tokens)
    | .string text => some (.string text, tokens)
    | .openList =>
      match tokens with
      | .closeList :: rest => some (.list [], rest)
      | _ => (readItems steps tokens).map fun (items, rest) => (.list items, rest)
    | .openObject =>
      match tokens with
      | .closeObject :: rest => some (.object [], rest)
      | _ => (readFields steps tokens).map fun (fields, rest) => (.object fields, rest)
    | _ => none

/-- The items of a list, at least one, and its closing bracket. -/
def readItems : (steps : Nat) → List Token → Option (List Json × List Token)
  | 0, _ => none
  | steps + 1, tokens =>
    match readValue steps tokens with
    | some (item, .comma :: rest) =>
      (readItems steps rest).map fun (items, rest) => (item :: items, rest)
    | some (item, .closeList :: rest) => some ([item], rest)
    | _ => none

/-- The fields of an object, at least one, and its closing brace. -/
def readFields : (steps : Nat) → List Token → Option (List (Option String × Json) × List Token)
  | 0, _ => none
  | steps + 1, .string name :: .colon :: tokens =>
    match readValue steps tokens with
    | some (value, .comma :: rest) =>
      (readFields steps rest).map fun (fields, rest) => ((name, value) :: fields, rest)
    | some (value, .closeObject :: rest) => some ([(name, value)], rest)
    | _ => none
  | _ + 1, _ => none

end

/-- The value of a list of tokens, all of which it takes. -/
def readTokens (tokens : List Token) : Option Json :=
  match readValue tokens.length tokens with
  | some (value, []) => some value
  | _ => none

/-- The value that a text denotes. -/
def read? (text : String) : Option Json := (lex text.toList).bind readTokens

end GrammarArt.Json
