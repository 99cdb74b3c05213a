import GrammarArt.Json.Basic

/-! # Writing JSON

A value is written without blanks.  In strings only the quote, the backslash and control
characters are escaped, with one letter where there is one.
-/
namespace GrammarArt.Json

/-- The two hexadecimal digits of a number below 256. -/
def hexByte (n : Nat) : List Char := [Nat.digitChar (n / 16), Nat.digitChar (n % 16)]

/-- A character as it is written in a string. -/
def escape (c : Char) : List Char :=
  match c with
  | '"' => ['\\', '"']
  | '\\' => ['\\', '\\']
  | '\x08' => ['\\', 'b']
  | '\x0c' => ['\\', 'f']
  | '\n' => ['\\', 'n']
  | '\r' => ['\\', 'r']
  | '\t' => ['\\', 't']
  | c => if c.toNat < 0x20 then '\\' :: 'u' :: '0' :: '0' :: hexByte c.toNat else [c]

/-- A text as a string. -/
def quoted (cs : List Char) : List Char := '"' :: (cs.flatMap escape ++ ['"'])

/-- A string, or half of a pair where there is no text. -/
def stringText : Option String → List Char
  | some text => quoted text.toList
  | none => ['"', '\\', 'u', 'd', '8', '0', '0', '"']

mutual

/-- The text of a value. -/
def text : Json → List Char
  | null => ['n', 'u', 'l', 'l']
  | bool true => ['t', 'r', 'u', 'e']
  | bool false => ['f', 'a', 'l', 's', 'e']
  | number numeral => numeral
  | string s => stringText s
  | list items => '[' :: (itemsText items ++ [']'])
  | object fields => '{' :: (fieldsText fields ++ ['}'])

/-- The text of the items of a list. -/
def itemsText : List Json → List Char
  | [] => []
  | [item] => text item
  | item :: next :: items => text item ++ ',' :: itemsText (next :: items)

/-- The text of the fields of an object. -/
def fieldsText : List (Option String × Json) → List Char
  | [] => []
  | [(name, value)] => stringText name ++ ':' :: text value
  | (name, value) :: next :: fields =>
    stringText name ++ ':' :: (text value ++ ',' :: fieldsText (next :: fields))

end

/-- The text of a value. -/
def render (value : Json) : String := String.ofList value.text

end GrammarArt.Json
