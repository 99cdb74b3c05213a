import GrammarArt.Refinement
import GrammarArt.Request
import GrammarArt.Shader.Module
import GrammarArt.Tree.Printer

/-! # Sessions

A session serves one request.  It derives the tree once (`derive`) and then renders one
step after another (`advance`) until the image is done; a new feed (`setVariables`) makes
it render again, from the first step on, if its tree depends on the feed.  It can be
abandoned (`cancel`).  Whatever it produces is an event.

    idle ── derive ──▶ rendering ── last step ──▶ done
                           ▲                       │
                           └──── setVariables ─────┘

A failure ends in `failed`, wherever it happens.  The state `building` is the one during
`derive`; between two operations no session is in it.

A size can be fine for a frame and yet leave no room for its pixels.  Then `derive` or
`advance`, whichever needs the room, ends with neither an event nor a session.
-/
namespace GrammarArt

/-- Where a session stands. -/
inductive SessionState where
  | idle
  | building
  | rendering
  | done
  | cancelled
  | failed
  deriving DecidableEq, Repr

namespace SessionState

/-- All states. -/
def all : List SessionState := [idle, building, rendering, done, cancelled, failed]

/-- The name of a state. -/
def name : SessionState → String
  | idle => "idle"
  | building => "deriving"
  | rendering => "rendering"
  | done => "done"
  | cancelled => "cancelled"
  | failed => "failed"

/-- Whether a session in this state has nothing to do any more. -/
def isTerminal : SessionState → Bool
  | done | cancelled | failed => true
  | _ => false

end SessionState

/-- Why a session failed: there is no tree, or it cannot be rendered. -/
inductive SessionError where
  | derive (failure : Failure)
  | render (failure : Failure)
  deriving DecidableEq, Repr

namespace SessionError

/-- What failed. -/
def inner : SessionError → Failure
  | derive failure | render failure => failure

/-- The text of a session error. -/
def message : SessionError → String
  | derive failure => s!"derivation failed: {failure.message}"
  | render failure => s!"render failed: {failure.message}"

end SessionError

/-- What a session produces.  Every event names its session. -/
inductive Event where
  /-- The tree was derived: its canonical text and its shader. -/
  | expression (session : Nat) (canonical shader : String)
  /-- A step was rendered. -/
  | progress (session : Nat) (current total : Nat) (image : Frame)
  | failed (session : Nat) (error : SessionError)
  deriving DecidableEq, Repr

namespace Event

/-- The session of an event. -/
def session : Event → Nat
  | expression session _ _ | progress session _ _ _ | failed session _ => session

/-- Whether an event is the last step of an image. -/
def isFinalProgress : Event → Bool
  | progress _ current total _ => current = total
  | _ => false

/-- The state of a session right after it produced an event. -/
def stateAfter : Event → SessionState
  | expression _ _ _ => .rendering
  | progress _ current total _ => if current = total then .done else .rendering
  | failed _ _ => .failed

end Event

/-- The work on an image. -/
inductive Renderer where
  | interpreted (refinement : Refinement)
  /-- The program of the tree, and whether a pass is owed. -/
  | compiled (program : Program) (pending : Bool)

/-- A derived tree and the work on its image. -/
structure Picture where
  tree : Tree
  renderer : Renderer

/-- A session. -/
structure Session where
  id : Nat
  request : StartRequest
  state : SessionState
  picture : Option Picture
  feed : Feed

namespace Session

/-- The session of a request, before its first operation. -/
def new (id : Nat) (request : StartRequest) : Session := ⟨id, request, .idle, none, request.feed⟩

/-- The derived tree, once there is one. -/
def root (s : Session) : Option Tree := s.picture.map Picture.tree

/-- The event of a failure, and the session after it. -/
def fail (s : Session) (error : SessionError) : Event × Session :=
  (.failed s.id error, { s with state := .failed })

/-- The work on the image of a tree, before its first step. -/
def prepare (request : StartRequest) (tree : Tree) :
    Except Exhausted (Except Failure Renderer) :=
  match request.backend with
  | .interpreted =>
    match Refinement.start request.width.toNat request.height.toNat request.time with
    | .error e => .error e
    | .ok (.error e) => .ok (.error (.invalid (.size e)))
    | .ok (.ok refinement) => .ok (.ok (.interpreted refinement))
  | .compiled executor =>
    if executor.isAvailable then .ok (.ok (.compiled tree.lower true))
    else .ok (.error (.unavailable .executor))

/-- The tree is derived; its event, and the session after it. -/
def derive (s : Session) : Except Exhausted (Event × Session) :=
  if s.state ≠ .idle then .ok (s.fail (.derive (.invalid (.notIdle s.id))))
  else match s.request.build with
    | .error e => .ok (s.fail (.derive e))
    | .ok tree =>
      match prepare s.request tree with
      | .error e => .error e
      | .ok (.error e) => .ok (s.fail (.render e))
      | .ok (.ok renderer) =>
        .ok (.expression s.id tree.render tree.shader,
          { s with state := .rendering, picture := some ⟨tree, renderer⟩ })

/-- A step of the image is rendered by evaluation of the tree. -/
def refine (s : Session) (tree : Tree) (refinement : Refinement) : Option Event × Session :=
  match refinement.step tree s.feed with
  | (none, _) => (none, s)
  | (some step, refinement) =>
    (some (.progress s.id step.current step.total step.frame),
      { s with
        state := if step.current = step.total then .done else s.state
        picture := some ⟨tree, .interpreted refinement⟩ })

/-- The image is rendered by a program, in a single pass. -/
def pass (s : Session) (tree : Tree) (program : Program) : Except Exhausted (Event × Session) :=
  let s := { s with picture := some ⟨tree, .compiled program false⟩ }
  match program.image s.request.width.toNat s.request.height.toNat s.request.time s.feed with
  | .error e => .error e
  | .ok (.error e) => .ok (s.fail (.render (.invalid (.size e))))
  | .ok (.ok image) => .ok (.progress s.id 1 1 image, { s with state := .done })

/-- The next step is rendered, if one is owed; its event, and the session after it. -/
def advance (s : Session) : Except Exhausted (Option Event × Session) :=
  if s.state ≠ .rendering then .ok (none, s)
  else match s.picture with
    | none =>
      let (event, s) := s.fail (.render (.unavailable .noTree))
      .ok (some event, s)
    | some ⟨tree, .interpreted refinement⟩ => .ok (s.refine tree refinement)
    | some ⟨_, .compiled _ false⟩ => .ok (none, s)
    | some ⟨tree, .compiled program true⟩ =>
      match s.pass tree program with
      | .error e => .error e
      | .ok (event, s) => .ok (some event, s)

/-- The work on an image, begun again. -/
def Renderer.restart : Renderer → Renderer
  | .interpreted refinement => .interpreted refinement.rewind
  | .compiled program _ => .compiled program true

/-- The feed is replaced; whether the image has to be rendered again, and the session. -/
def setVariables (s : Session) (feed : Feed) : Bool × Session :=
  let s := { s with feed := feed }
  match s.picture with
  | none => (false, s)
  | some ⟨tree, renderer⟩ =>
    if tree.readsVariables ∧ (s.state = .rendering ∨ s.state = .done) then
      (true, { s with state := .rendering, picture := some ⟨tree, Renderer.restart renderer⟩ })
    else (false, s)

/-- The session is abandoned, if it is still at work. -/
def cancel (s : Session) : Session :=
  if s.state = .building ∨ s.state = .rendering then { s with state := .cancelled } else s

end Session

end GrammarArt
