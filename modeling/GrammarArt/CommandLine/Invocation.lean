import GrammarArt.Binary32.Reader
import GrammarArt.CommandLine.Option
import GrammarArt.Grammar.Preset
import GrammarArt.Request

/-! # Invocations

An invocation is what the arguments of the program ask for: an image (`render`), the
canonical text or the shader of an expression (`expr`), the list of presets (`presets`), or
a text about the program.  `Invocation.read` is the way from arguments to invocations.
-/
namespace GrammarArt.CommandLine

/-- Where the tree comes from. -/
structure SourceOptions where
  expression : Option String
  /-- The path of a grammar, which takes precedence over the preset. -/
  grammar : Option String
  preset : String
  seed : Option UInt32
  depth : Option UInt32

/-- What to render, how, and where the results go. -/
structure RenderOptions where
  source : SourceOptions
  width : UInt32
  height : UInt32
  backend : Backend
  time : Float32
  assignments : List (Variable × Float32)
  out : String
  shaderOut : Option String
  /-- The path of a request, which replaces source, size, backend and time. -/
  config : Option String

/-- A command of the program. -/
inductive Topic where
  | render
  | expr
  | presets
  deriving DecidableEq, Repr

/-- What is asked for. -/
inductive Invocation where
  | render (options : RenderOptions)
  | expr (source : SourceOptions) (shader : Bool)
  | presets (withText : Bool)
  | help (topic : Option Topic)
  | version

/-! ### Values -/

/-- A whole number with an optional sign, if it fits 32 bits without one. -/
def uint32? (text : String) : Option UInt32 :=
  let bounded := fun (ds : List Char) (most : Nat) =>
    if ds ≠ [] ∧ ds.all Char.isDigit ∧ Binary32.digitsValue ds ≤ most then
      some (UInt32.ofNat (Binary32.digitsValue ds))
    else none
  match text.toList with
  | '+' :: ds => bounded ds (UInt32.size - 1)
  | '-' :: ds => bounded ds 0
  | ds => bounded ds (UInt32.size - 1)

/-- A number. -/
def float32? (text : String) : Option Float32 := Binary32.read? text.toList

/-- A path, which is not empty. -/
def path? (text : String) : Option String := if text = "" then none else some text

/-- A backend. -/
def backend? : String → Option Backend
  | "interpreted" => some .interpreted
  | "cpu" => some (.compiled .cpu)
  | "gpu" => some (.compiled .gpu)
  | _ => none

/-- A variable and its value, as `name=value`. -/
def assignment? (text : String) : Option (Variable × Float32) := do
  let (name, value) ← Text.cut? '=' text.toList
  return (← Variable.ofName? (String.ofList name), ← Binary32.read? value)

/-! ### Drafts -/

/-- The options of a source given so far. -/
structure SourceDraft where
  expression : Option String
  grammar : Option String
  preset : Option String
  seed : Option UInt32
  depth : Option UInt32

namespace SourceDraft

/-- The draft before any option. -/
def empty : SourceDraft := ⟨none, none, none, none, none⟩

/-- The options of a source. -/
def rules : List (OptionRule SourceDraft) :=
  [.once "grammar" (.value false) path? (·.grammar) fun d a => { d with grammar := some a },
    .once "preset" (.value false) some (·.preset) fun d a => { d with preset := some a },
    .once "seed" (.value false) uint32? (·.seed) fun d a => { d with seed := some a },
    .once "depth" (.value false) uint32? (·.depth) fun d a => { d with depth := some a },
    .once "expr" (.value false) some (·.expression) fun d a => { d with expression := some a }]

/-- The source, with the basic preset by default. -/
def finish (d : SourceDraft) : SourceOptions :=
  ⟨d.expression, d.grammar, d.preset.getD Preset.basic.name, d.seed, d.depth⟩

end SourceDraft

/-- The options of `render` given so far. -/
structure RenderDraft where
  source : SourceDraft
  width : Option UInt32
  height : Option UInt32
  backend : Option Backend
  time : Option Float32
  assignments : List (Variable × Float32)
  out : Option String
  shaderOut : Option String
  config : Option String

namespace RenderDraft

/-- The draft before any option. -/
def empty : RenderDraft := ⟨.empty, none, none, none, none, [], none, none, none⟩

/-- The option that gives a variable its value, as often as wanted. -/
def variableRule : OptionRule RenderDraft where
  name := "var"
  form := .value false
  apply draft text :=
    match assignment? text with
    | none => .error (.badValue "var" text)
    | some a => .ok { draft with assignments := draft.assignments ++ [a] }

/-- The options of `render`. -/
def rules : List (OptionRule RenderDraft) :=
  SourceDraft.rules.map (·.lift (·.source) fun d a => { d with source := a }) ++
  [.once "width" (.value false) uint32? (·.width) fun d a => { d with width := some a },
    .once "height" (.value false) uint32? (·.height) fun d a => { d with height := some a },
    .once "backend" (.value false) backend? (·.backend) fun d a => { d with backend := some a },
    .once "time" (.value true) float32? (·.time) fun d a => { d with time := some a },
    variableRule,
    .once "out" (.value false) path? (·.out) fun d a => { d with out := some a },
    .once "shader-out" (.value false) path? (·.shaderOut) fun d a => { d with shaderOut := some a },
    .once "config" (.value false) path? (·.config) fun d a => { d with config := some a }]

/-- What is to be rendered: by default at time zero, in one pass of the processor, in 512
times 512 pixels. -/
def finish (d : RenderDraft) : Except Rejection RenderOptions :=
  match d.out with
  | none => .error (.missingOption "out")
  | some out =>
    .ok
      { source := d.source.finish
        width := d.width.getD 512
        height := d.height.getD 512
        backend := d.backend.getD (.compiled .cpu)
        time := d.time.getD 0
        assignments := d.assignments
        out := out
        shaderOut := d.shaderOut
        config := d.config }

end RenderDraft

/-- A flag that may be given once. -/
def flagRule {σ : Type} (name : String) (get : σ → Option Unit) (put : σ → σ) : OptionRule σ :=
  .once name .flag (fun _ => some ()) get fun d _ => put d

/-- The options of `expr`: a source, and whether the shader is wanted. -/
def exprRules : List (OptionRule (SourceDraft × Option Unit)) :=
  SourceDraft.rules.map (·.lift (·.1) fun d a => (a, d.2)) ++
  [flagRule "shader" (·.2) fun d => (d.1, some ())]

/-- The option of `presets`: whether the grammars are wanted. -/
def presetsRules : List (OptionRule (Option Unit)) := [flagRule "show" id fun _ => some ()]

/-! ### Reading -/

namespace Topic

/-- The name of a command. -/
def name : Topic → String
  | render => "render"
  | expr => "expr"
  | presets => "presets"

/-- The command of a name. -/
def ofName? (s : String) : Option Topic := [render, expr, presets].find? fun t => t.name = s

/-- The invocation of a command with options. -/
def invocation (topic : Topic) (args : List String) : Except Rejection Invocation :=
  match topic with
  | render => do
    match ← readOptions RenderDraft.rules .empty args with
    | .help => return .help render
    | .draft d => return .render (← d.finish)
  | expr => do
    match ← readOptions exprRules (.empty, none) args with
    | .help => return .help expr
    | .draft (d, shader) => return .expr d.finish shader.isSome
  | presets => do
    match ← readOptions presetsRules none args with
    | .help => return .help presets
    | .draft withText => return .presets withText.isSome

end Topic

namespace Invocation

/-- The invocation of `help`, for the program or for one of its commands. -/
def ofHelp : List String → Except Rejection Invocation
  | [] | ["help"] => .ok (help none)
  | name :: rest =>
    match Topic.ofName? name, rest with
    | some topic, [] => .ok (help topic)
    | some _, next :: _ => .error (.unknownCommand next)
    | none, _ => .error (.unknownCommand name)

/-- What arguments ask for.  The first one is a command, or asks for help or the version. -/
def read : List String → Except Rejection Invocation
  | [] => .error .noCommand
  | arg :: args =>
    match Shape.of arg with
    | .separator => .error (args.head?.elim .noCommand .unexpected)
    | .short letters =>
      if letters.head? = some 'h' then .ok (help none)
      else if letters.head? = some 'V' then .ok version
      else .error (.unknownOption arg)
    | .long "help" none => .ok (help none)
    | .long "version" none => .ok version
    | .long _ _ => .error (.unknownOption arg)
    | .plain =>
      if arg = "help" then ofHelp args
      else match Topic.ofName? arg with
        | some topic => topic.invocation args
        | none => .error (.unknownCommand arg)

end Invocation

end GrammarArt.CommandLine
