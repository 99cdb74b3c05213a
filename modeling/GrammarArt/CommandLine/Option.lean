import GrammarArt.Text.Cut

/-! # Options on a command line

Options are given by name, `--name`, one that takes a value as `--name value` or
`--name=value`.  They are applied from left to right to a *draft* of what they describe, and
the first fault ends the reading.  Behind a lone `--` no options are read any more.

An argument that starts with a dash is never taken for the value of the option before it,
except for a negative number where the option allows one; a lone `-` is an ordinary value.
-/
namespace GrammarArt.CommandLine

/-- Why arguments are refused. -/
inductive Rejection where
  | noCommand
  | unknownCommand (name : String)
  | unknownOption (arg : String)
  | unexpected (arg : String)
  | missingValue (option : String)
  | needlessValue (option : String)
  | badValue (option value : String)
  | repeated (option : String)
  | missingOption (option : String)
  deriving DecidableEq, Repr

/-- The text of a rejection. -/
def Rejection.message : Rejection → String
  | noCommand => "a command is required"
  | unknownCommand name => s!"unrecognized command '{name}'"
  | unknownOption arg => s!"unexpected argument '{arg}' found"
  | unexpected arg => s!"unexpected argument '{arg}' found"
  | missingValue option => s!"a value is required for '--{option}'"
  | needlessValue option => s!"'--{option}' takes no value"
  | badValue option value => s!"invalid value '{value}' for '--{option}'"
  | repeated option => s!"'--{option}' cannot be used multiple times"
  | missingOption option => s!"'--{option}' is required"

/-- How an option is given. -/
inductive OptionForm where
  | flag
  /-- With a value, which may be a negative number or not. -/
  | value (negative : Bool)
  deriving DecidableEq, Repr

/-- An option: its name, its form, and the draft after it was given.  A flag is given with
an empty value. -/
structure OptionRule (σ : Type) where
  name : String
  form : OptionForm
  apply : σ → String → Except Rejection σ

/-- An option that may be given once, its value read by `read?` and put into the draft. -/
def OptionRule.once {σ α : Type} (name : String) (form : OptionForm) (read? : String → Option α)
    (get : σ → Option α) (put : σ → α → σ) : OptionRule σ where
  name := name
  form := form
  apply draft value :=
    match read? value with
    | none => .error (.badValue name value)
    | some a => if (get draft).isSome then .error (.repeated name) else .ok (put draft a)

/-- An option of a part of a draft, as one of the whole. -/
def OptionRule.lift {σ τ : Type} (rule : OptionRule σ) (get : τ → σ) (put : τ → σ → τ) :
    OptionRule τ where
  name := rule.name
  form := rule.form
  apply draft value := (rule.apply (get draft) value).map (put draft)

/-- How an argument looks. -/
inductive Shape where
  | plain
  /-- A lone `--`. -/
  | separator
  /-- Two dashes, a name and the value attached to it. -/
  | long (name : String) (attached : Option String)
  /-- A dash and letters. -/
  | short (letters : List Char)
  deriving DecidableEq, Repr

/-- The shape of an argument. -/
def Shape.of (arg : String) : Shape :=
  match arg.toList with
  | '-' :: '-' :: cs =>
    if cs = [] then separator
    else match Text.cut? '=' cs with
      | some (name, value) => long (String.ofList name) (some (String.ofList value))
      | none => long (String.ofList cs) none
  | '-' :: c :: cs => short (c :: cs)
  | _ => plain

/-- Whether a text behind a dash looks like a number: digits, a point that is not first, and
an exponent that is neither first nor empty. -/
def looksNumeric (cs : List Char) : Bool :=
  let mantissa := cs.takeWhile fun c => c ≠ 'e' ∧ c ≠ 'E'
  let mantissaFits :=
    mantissa.head? ≠ some '.' && mantissa.all (fun c => c.isDigit || c = '.')
      && mantissa.count '.' ≤ 1
  match cs.drop mantissa.length with
  | [] => mantissaFits
  | _ :: exponent =>
    mantissaFits && mantissa ≠ [] && exponent ≠ [] && exponent.all Char.isDigit

/-- Whether an argument can be the value of the option before it. -/
def isValue (negative : Bool) (arg : String) : Bool :=
  match Shape.of arg with
  | .plain => true
  | .short letters => negative && looksNumeric letters
  | _ => false

/-- What options come to. -/
inductive Reading (σ : Type) where
  | draft (draft : σ)
  /-- Help was asked for. -/
  | help

/-- The draft after options were applied to it. -/
def readOptions {σ : Type} (rules : List (OptionRule σ)) (draft : σ) :
    List String → Except Rejection (Reading σ)
  | [] => .ok (.draft draft)
  | arg :: args =>
    match Shape.of arg with
    | .plain => .error (.unexpected arg)
    | .separator =>
      match args with
      | [] => .ok (.draft draft)
      | next :: _ => .error (.unexpected next)
    | .short letters => if letters.head? = some 'h' then .ok .help else .error (.unknownOption arg)
    | .long name attached =>
      match rules.find? fun rule => rule.name = name with
      | none =>
        if name ≠ "help" then .error (.unknownOption arg)
        else if attached.isSome then .error (.needlessValue name)
        else .ok .help
      | some rule =>
        match rule.form, attached with
        | .flag, some _ => .error (.needlessValue name)
        | .flag, none =>
          match rule.apply draft "" with
          | .error e => .error e
          | .ok draft => readOptions rules draft args
        | .value _, some value =>
          match rule.apply draft value with
          | .error e => .error e
          | .ok draft => readOptions rules draft args
        | .value negative, none =>
          match args with
          | [] => .error (.missingValue name)
          | value :: args =>
            if isValue negative value then
              match rule.apply draft value with
              | .error e => .error e
              | .ok draft => readOptions rules draft args
            else .error (.missingValue name)

end GrammarArt.CommandLine
