import GrammarArt.Engine
import GrammarArt.Json.Printer
import GrammarArt.Json.Reader
import GrammarArt.Json.Record

/-! # Requests as JSON

Requests, the options of an engine and the states of a session have a form in JSON.  For
each of them `toJson` writes it and `ofJson?` reads it; `encode` and `decode?` do so with
texts.  Backend, time and feed of a request to start may be left out, and are then as they
are by default.  A feed is always written with all its variables, in the order of their
names.
-/
namespace GrammarArt

namespace Feed

/-- The table of all values. -/
def toJson (feed : Feed) : Json :=
  .ofFields (feed.toNamed.map fun (name, value) => (name, .ofFloat32 value))

/-- The feed of a table. -/
def ofJson? (json : Json) : Option Feed := json.table?.map ofNamed

end Feed

namespace Executor

/-- The name of an executor. -/
def toJson (executor : Executor) : Json := .ofString executor.name

/-- The executor of a name. -/
def ofJson? (json : Json) : Option Executor :=
  match json.variant? with
  | some ("cpu", .null) => some cpu
  | some ("gpu", .null) => some gpu
  | _ => none

end Executor

namespace Backend

/-- A backend, as a variant that names the executor if it has one. -/
def toJson : Backend → Json
  | interpreted => .ofString "interpreted"
  | compiled executor => .ofVariant "compiled" executor.toJson

/-- The backend of a variant. -/
def ofJson? (json : Json) : Option Backend :=
  match json.variant? with
  | some ("interpreted", .null) => some interpreted
  | some ("compiled", executor) => (Executor.ofJson? executor).map compiled
  | _ => none

end Backend

/-- The text of a string. -/
def Json.text? : Json → Option String
  | .string text => text
  | _ => none

/-- The number of 32 bits that a number is. -/
def Json.uint32? (json : Json) : Option UInt32 := (json.natural? UInt32.size).map UInt32.ofNat

namespace Source

/-- A source, as a variant that holds a record or a text. -/
def toJson : Source → Json
  | grammar text depth seed =>
    .ofVariant "grammar" (.ofFields
      [("text", .ofString text), ("depth", .ofNat depth.toNat), ("seed", .ofNat seed.toNat)])
  | expression text => .ofVariant "expression" (.ofString text)

/-- The derivation that a record describes. -/
def derivation? (json : Json) : Option Source :=
  match json.record? ["text", "depth", "seed"] with
  | some [some text, some depth, some seed] => do
    return grammar (← text.text?) (← depth.uint32?) (← seed.uint32?)
  | _ => none

/-- The source of a variant. -/
def ofJson? (json : Json) : Option Source :=
  match json.variant? with
  | some ("grammar", record) => derivation? record
  | some ("expression", text) => text.text?.map expression
  | _ => none

end Source

namespace StartRequest

/-- A request to start, as a record of six fields. -/
def toJson (request : StartRequest) : Json :=
  .ofFields
    [("source", request.source.toJson), ("width", .ofNat request.width.toNat),
      ("height", .ofNat request.height.toNat), ("backend", request.backend.toJson),
      ("time", .ofFloat32 request.time), ("variables", request.feed.toJson)]

/-- What a field that may be left out holds. -/
def orDefault {α : Type} (read? : Json → Option α) (missing : α) : Option Json → Option α
  | some json => read? json
  | none => some missing

/-- The request to start that a record describes. -/
def ofJson? (json : Json) : Option StartRequest :=
  match json.record? ["source", "width", "height", "backend", "time", "variables"] with
  | some [some source, some width, some height, backend, time, feed] => do
    let source ← Source.ofJson? source
    let width ← width.uint32?
    let height ← height.uint32?
    let backend ← orDefault Backend.ofJson? .interpreted backend
    let time ← orDefault Json.float32? 0 time
    let feed ← orDefault Feed.ofJson? .none feed
    return ⟨source, width, height, backend, time, feed⟩
  | _ => none

/-- The text of a request to start. -/
def encode (request : StartRequest) : String := request.toJson.render

/-- The request to start that a text denotes. -/
def decode? (text : String) : Option StartRequest := (Json.read? text).bind ofJson?

end StartRequest

namespace Request

/-- A request, as a variant. -/
def toJson : Request → Json
  | start request => .ofVariant "start" request.toJson
  | next => .ofString "next"
  | setVariables feed => .ofVariant "set_variables" feed.toJson

/-- The request of a variant. -/
def ofJson? (json : Json) : Option Request :=
  match json.variant? with
  | some ("start", request) => (StartRequest.ofJson? request).map start
  | some ("next", .null) => some next
  | some ("set_variables", feed) => (Feed.ofJson? feed).map setVariables
  | _ => none

/-- The text of a request. -/
def encode (request : Request) : String := request.toJson.render

/-- The request that a text denotes. -/
def decode? (text : String) : Option Request := (Json.read? text).bind ofJson?

end Request

namespace EngineOptions

/-- Options, as a record of one field. -/
def toJson (options : EngineOptions) : Json :=
  .ofFields [("channel_capacity", .ofNat options.channelCapacity)]

/-- The options of a record; a capacity has 64 bits. -/
def ofJson? (json : Json) : Option EngineOptions :=
  match json.record? ["channel_capacity"] with
  | some [some capacity] => (capacity.natural? UInt64.size).map EngineOptions.mk
  | some [none] => some default
  | _ => none

/-- The text of options. -/
def encode (options : EngineOptions) : String := options.toJson.render

/-- The options that a text denotes. -/
def decode? (text : String) : Option EngineOptions := (Json.read? text).bind ofJson?

end EngineOptions

namespace SessionState

/-- The state of a name. -/
def ofJson? (json : Json) : Option SessionState :=
  match json.variant? with
  | some (name, .null) => all.find? fun state => state.name = name
  | _ => none

/-- The state that a text denotes. -/
def decode? (text : String) : Option SessionState := (Json.read? text).bind ofJson?

end SessionState

end GrammarArt
