/-! # JSON values

A value keeps what is written as far as it matters to a reader: an object its fields in
order, every repetition included, and a number its numeral, from which a number of any
precision can be read.
-/
namespace GrammarArt

/-- A JSON value. -/
inductive Json where
  | null
  | bool (value : Bool)
  | number (numeral : List Char)
  /-- A string, or `none` where its escapes spell no text. -/
  | string (text : Option String)
  | list (items : List Json)
  | object (fields : List (Option String × Json))
  deriving Repr

namespace Json

/-- The string of a text. -/
def ofString (text : String) : Json := string (some text)

/-- The object of named fields. -/
def ofFields (fields : List (String × Json)) : Json :=
  object (fields.map fun (name, value) => (some name, value))

end Json

end GrammarArt
