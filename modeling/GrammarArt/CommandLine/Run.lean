import GrammarArt.CommandLine.Help
import GrammarArt.CommandLine.Path
import GrammarArt.CommandLine.Trouble
import GrammarArt.Engine.Watch
import GrammarArt.Request.Json

/-! # The commands

`run` reads the arguments and does what they ask for; its result is the exit status: zero
if that was done, one if it failed, two if the arguments were refused.  A command that
fails has printed what it had to print before, and reports the failure last.
-/
namespace GrammarArt.CommandLine

variable {m : Type → Type} [Monad m] [Host m]

/-- A part of a command, which can fail. -/
abbrev Task (m : Type → Type) := ExceptT Trouble m

instance : Host (Task m) where
  print text := ExceptT.lift (Host.print text)
  report text := ExceptT.lift (Host.report text)
  drawSeed := ExceptT.lift Host.drawSeed
  readText path := ExceptT.lift (Host.readText path)
  writeText path text := ExceptT.lift (Host.writeText path text)
  writeImage path frame := ExceptT.lift (Host.writeImage path frame)
  makeDirectory path := ExceptT.lift (Host.makeDirectory path)

/-- A use of a file; if it fails, the trouble says what was being done. -/
def file {α : Type} (doing : String) (action : Task m (Except FileError α)) : Task m α := do
  match ← action with
  | .ok a => return a
  | .error e => throw (.ofFile doing e)

/-! ### Sources -/

/-- The depth of derivations from a grammar in a file, where none is given. -/
def fileDepth : UInt32 := 12

/-- The trouble of a name that no preset has. -/
def unknownPreset (name : String) : Trouble :=
  let known := ", ".intercalate (Preset.all.map Preset.name)
  ⟨s!"unknown preset '{name}' (available: {known})", []⟩

/-- The text of the grammar, and its depth where none is given. -/
def grammarOf (options : SourceOptions) : Task m (String × UInt32) :=
  match options.grammar with
  | some path => do return (← file s!"read grammar '{path}'" (Host.readText path), fileDepth)
  | none =>
    match Preset.ofName? options.preset with
    | some preset => return (preset.text, preset.depth.toUInt32)
    | none => throw (unknownPreset options.preset)

/-- The source that options describe.  The seed of a derivation is reported, so that it can
be repeated. -/
def sourceOf (options : SourceOptions) : Task m Source :=
  match options.expression with
  | some text => return .expression text
  | none => do
    let (text, depth) ← grammarOf options
    let seed ← match options.seed with
      | some seed => pure seed
      | none => Host.drawSeed
    Host.report s!"seed {seed}\n"
    return .grammar text (options.depth.getD depth) seed

/-! ### Images -/

/-- A directory is made, and those it lies in, as far as they are missing: the first path is
its own, the others lead from there to the outside. -/
def makeDirectories : List String → m (Except FileError Unit)
  | [] => return .ok ()
  | path :: above => do
    match ← Host.makeDirectory path with
    | .error .notFound =>
      match ← makeDirectories above with
      | .error e => return .error e
      | .ok _ => Host.makeDirectory path
    | outcome => return outcome

/-- The directory that a path lies in is made. -/
def makeParent (path : String) : Task m Unit :=
  match parents path with
  | [] => return
  | dir :: above => file s!"create output dir '{dir}'" (makeDirectories (dir :: above))

/-- The trouble of a file that is there, but holds no request. -/
def noRequest (why : String) : Trouble := ⟨"parse start request JSON", [why]⟩

/-- The request in a file.  What is there can be opened, also if it cannot be read. -/
def readConfig (path : String) : Task m StartRequest := do
  match ← Host.readText path with
  | .error e =>
    throw (if e.isOfReading then noRequest e.message else .ofFile s!"open config '{path}'" e)
  | .ok text =>
    match StartRequest.decode? text with
    | some request => return request
    | none => throw (noRequest "the text is not a start request")

/-- The request that options describe, but for the variables. -/
def requestOf (options : RenderOptions) : Task m StartRequest :=
  match options.config with
  | some path => readConfig path
  | none => do
    return { StartRequest.ofSource (← sourceOf options.source) with
      width := options.width
      height := options.height
      backend := options.backend
      time := options.time }

/-- The feed after variables were given values, one after another. -/
def assign (feed : Feed) (values : List (Variable × Float32)) : Feed :=
  values.foldl (fun feed (v, value) => feed.set v value) feed

/-- The image of the last of some events.  On the way the canonical text is printed, and the
shader written where it is wanted. -/
def follow (shaderOut : Option String) : List Event → Task m Frame
  | [] => throw ⟨"session ended without producing an image", []⟩
  | .failed _ error :: _ => throw (.ofSession error)
  | .progress _ current total image :: events =>
    if current = total then return image else follow shaderOut events
  | .expression _ canonical shader :: events => do
    Host.print s!"{canonical}\n"
    match shaderOut with
    | none => pure ()
    | some path => do
      makeParent path
      file s!"write shader '{path}'" (Host.writeText path shader)
    follow shaderOut events

/-- An image is rendered and written. -/
def render (options : RenderOptions) : Task m Unit := do
  let request ← requestOf options
  let request := { request with feed := assign request.feed options.assignments }
  let image ← follow options.shaderOut (Engine.watchRequest request)
  makeParent options.out
  file s!"write png '{options.out}'" (Host.writeImage options.out image)
  Host.report s!"wrote {options.out}\n"

/-! ### Texts -/

/-- The canonical text or the shader of an expression is printed. -/
def expr (options : SourceOptions) (shader : Bool) : Task m Unit := do
  match (← sourceOf options).build with
  | .error failure => throw (.ofFailure failure)
  | .ok tree => Host.print (if shader then tree.shader else s!"{tree.render}\n")

/-- The lines about a preset. -/
def presetText (withText : Bool) (preset : Preset) : String :=
  let lines := (preset.text.toList.splitOn '\n').map fun line => s!"    {String.ofList line}\n"
  s!"{preset.name} (depth {preset.depth})\n" ++ if withText then String.join lines else ""

/-! ### The program -/

/-- What is asked for is done. -/
def perform : Invocation → Task m Unit
  | .render options => render options
  | .expr source shader => expr source shader
  | .presets withText => Host.print (String.join (Preset.all.map (presetText withText)))
  | .help topic => Host.print (helpText topic)
  | .version => Host.print versionText

/-- The arguments are carried out; the exit status. -/
def run (args : List String) : m UInt32 := do
  match Invocation.read args with
  | .error rejection =>
    Host.report s!"error: {rejection.message}\n\nFor more information, try '--help'.\n"
    return 2
  | .ok invocation =>
    match ← (perform invocation).run with
    | .ok _ => return 0
    | .error trouble =>
      Host.report trouble.report
      return 1

end GrammarArt.CommandLine
