import GrammarArt.Failure
import GrammarArt.Grammar.Compile
import GrammarArt.Grammar.Preset
import GrammarArt.Raster

/-! # Requests

A request to start a session says where its tree comes from, how large the image is, what
renders it, and the time and the feed that the tree is evaluated at.  Whole numbers in a
request have 32 bits.
-/
namespace GrammarArt

/-- Where a tree comes from. -/
inductive Source where
  /-- A derivation from the first symbol of a grammar. -/
  | grammar (text : String) (depth seed : UInt32)
  | expression (text : String)
  deriving DecidableEq, Repr

/-- The tree of a source. -/
def Source.build : Source → Except Failure Tree
  | expression text => (Expression.parse text).mapError .expression
  | grammar text depth seed =>
    match Grammar.compile text with
    | .error e => .error (.grammar e)
    | .ok g =>
      match (g.derive g.start depth.toNat (Xoshiro.seed seed)).1 with
      | .error e => .error (.derivation e)
      | .ok derivation => .ok derivation.root

/-- What renders a tree: evaluation of the tree itself, from coarse to fine, or its program
in a single pass. -/
inductive Backend where
  | interpreted
  | compiled (executor : Executor)
  deriving DecidableEq, Repr

/-- A request to start a session. -/
structure StartRequest where
  source : Source
  width : UInt32
  height : UInt32
  backend : Backend
  time : Float32
  feed : Feed

namespace StartRequest

/-- A request for a source, with all else as it is by default. -/
def ofSource (source : Source) : StartRequest := ⟨source, 512, 512, .interpreted, 0, .none⟩

/-- The source of the default request: the basic preset. -/
def defaultSource : Source := .grammar Preset.basic.text Preset.basic.depth.toUInt32 0

/-- The default request. -/
def default : StartRequest := ofSource defaultSource

/-- What is wrong with a request, apart from its text, if anything is. -/
def invalid? (request : StartRequest) : Option Invalid :=
  if request.width = 0 ∨ request.height = 0 then
    some (.size (.empty request.width.toNat request.height.toNat))
  else if !request.time.isFinite then some .time
  else match request.source with
    | .grammar _ depth _ =>
      if Derivation.maxDepth < depth.toNat then some (.depth depth.toNat Derivation.maxDepth)
      else none
    | .expression _ => none

/-- The tree of a request that is valid. -/
def build (request : StartRequest) : Except Failure Tree :=
  match request.invalid? with
  | some cause => .error (.invalid cause)
  | none => request.source.build

end StartRequest

/-- A request to a running program. -/
inductive Request where
  | start (request : StartRequest)
  /-- The next step of the current session. -/
  | next
  /-- A new feed for the current session. -/
  | setVariables (feed : Feed)

end GrammarArt
