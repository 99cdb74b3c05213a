import GrammarArt.Json.Number

/-! # Records and variants in JSON

A record is written as an object, its fields in any order, or as a list of their values in
the order of the fields, where the last ones may be left out.  Fields of other names are
passed over, but no field may be given twice.

A variant is written as an object with one field, its name and what it holds; one that
holds nothing may also be written as its name.
-/
namespace GrammarArt.Json

/-- The names of fields, if all of them are texts. -/
def fieldNames? (fields : List (Option String × Json)) : Option (List String) :=
  fields.mapM Prod.fst

/-- The values of the field of a name, one for each time it is given. -/
def valuesOf (name : String) (fields : List (Option String × Json)) : List Json :=
  (fields.filter fun field => field.1 = some name).map Prod.snd

/-- The value of the field of a name, `none` if it is not given; it may be given once. -/
def field? (fields : List (Option String × Json)) (name : String) : Option (Option Json) :=
  match valuesOf name fields with
  | [] => some none
  | [value] => some (some value)
  | _ => none

/-- The values of the fields of a record, `none` for those that are not given. -/
def record? (names : List String) : Json → Option (List (Option Json))
  | object fields =>
    match fieldNames? fields with
    | none => none
    | some _ => names.mapM (field? fields)
  | list items =>
    if items.length ≤ names.length then
      some (items.map some ++ List.replicate (names.length - items.length) none)
    else none
  | _ => none

/-- The name of a variant and what it holds. -/
def variant? : Json → Option (String × Json)
  | string (some name) => some (name, null)
  | object [(some name, value)] => some (name, value)
  | _ => none

/-- The entries of an object used as a table of numbers. -/
def table? : Json → Option (List (String × Float32))
  | object fields =>
    fields.mapM fun (name, value) =>
      match name, float32? value with
      | some name, some value => some (name, value)
      | _, _ => none
  | _ => none

/-- A variant that holds something. -/
def ofVariant (name : String) (value : Json) : Json := ofFields [(name, value)]

end GrammarArt.Json
