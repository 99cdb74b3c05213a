import GrammarArt.Session

/-! # The engine

A caller works with one session at a time, and every session is served by a worker of its
own.  Caller and worker are connected by two queues of bounded capacity: commands go to the
worker, events come back.  The worker derives the tree, renders the first step without
being asked, and then serves one command after another; it waits while the queue of events
is full or the queue of commands is empty.

    caller ── commands ──▶ worker: Session ── events ──▶ caller

Starting a session lets go of the one before it: its worker keeps the commands that are
still queued, but what it would send is lost, and it ends at its next attempt.

A worker whose session runs out of memory breaks down.  The events it sent before can still
be received, and commands are refused.  The caller breaks down itself, in `start`, if there
is no room for the queues of a session.

A worker moves by `Worker.step?`, one move at a time, and the caller by the operations of
`Engine`; in a run these moves come in any order.  `Engine.settle` is one of these orders,
in which workers move as far as they can whenever the caller has made a move.
-/
namespace GrammarArt

/-- What a caller tells the worker of a running session. -/
inductive Command where
  | next
  | setVariables (feed : Feed)

/-- The bytes of a place in a queue of commands: eight for its number, then those of a
command, filled up to a multiple of eight. -/
def Command.slotBytes : Nat := 56

/-! ### Workers -/

/-- What a worker does next. -/
inductive Phase where
  /-- It derives the tree. -/
  | deriveTree
  /-- It renders a step, if one is owed. -/
  | render
  /-- It sends the event of the derivation. -/
  | sendTree (event : Event)
  /-- It sends the event of a step. -/
  | sendStep (event : Event)
  /-- It takes a command. -/
  | serve
  /-- Nothing: it has ended. -/
  | exited
  /-- Nothing: its session ran out of memory. -/
  | broken

/-- A worker, its session and its queues, and whether the caller still holds them. -/
structure Worker where
  session : Session
  phase : Phase
  capacity : Nat
  commands : List Command
  events : List Event
  held : Bool

namespace Worker

/-- The worker of a session that was just started. -/
def new (capacity : Nat) (session : Session) : Worker :=
  ⟨session, .deriveTree, capacity, [], [], true⟩

/-- The worker ends, and abandons its session. -/
def exit (w : Worker) : Worker := { w with session := w.session.cancel, phase := .exited }

/-- The worker breaks down. -/
def breakDown (w : Worker) : Worker := { w with phase := .broken }

/-- An event is sent, if there is room for it; nobody waits for it once the caller is gone. -/
def send? (w : Worker) (event : Event) (after : Phase) : Option Worker :=
  if !w.held then some w.exit
  else if w.events.length < w.capacity then
    some { w with phase := after, events := w.events ++ [event] }
  else none

/-- The next step is rendered, if one is owed. -/
def renderStep (w : Worker) : Worker :=
  match w.session.advance with
  | .error _ => w.breakDown
  | .ok (none, session) => { w with session := session, phase := .serve }
  | .ok (some event, session) => { w with session := session, phase := .sendStep event }

/-- A command is carried out. -/
def perform (w : Worker) : Command → Worker
  | .next => { w with phase := .render }
  | .setVariables feed =>
    match w.session.setVariables feed with
    | (true, session) => { w with session := session, phase := .render }
    | (false, session) => { w with session := session, phase := .serve }

/-- The tree is derived. -/
def deriveTree (w : Worker) : Worker :=
  match w.session.derive with
  | .error _ => w.breakDown
  | .ok (event, session) => { w with session := session, phase := .sendTree event }

/-- One move of a worker; none if it waits or has ended. -/
def step? (w : Worker) : Option Worker :=
  match w.phase with
  | .deriveTree => some w.deriveTree
  | .sendTree event => w.send? event .render
  | .render => some w.renderStep
  | .sendStep event => w.send? event .serve
  | .serve =>
    match w.commands with
    | command :: commands => some ({ w with commands := commands }.perform command)
    | [] => if w.held then none else some w.exit
  | .exited | .broken => none

/-- How many moves a phase is away from waiting for a command, at most. -/
def Phase.rank : Phase → Nat
  | .deriveTree => 5
  | .sendTree _ => 4
  | .render => 3
  | .sendStep _ => 2
  | .serve => 1
  | .exited | .broken => 0

/-- How many moves a worker can make by itself, at most. -/
def budget (w : Worker) : Nat := 3 * w.commands.length + Phase.rank w.phase

theorem budget_lt_of_step? {v w : Worker} (h : v.step? = some w) : w.budget < v.budget := by
  unfold step? at h
  split at h
  · rename_i hp
    cases h
    unfold deriveTree
    split <;> simp [budget, breakDown, Phase.rank, hp]
  · rename_i hp
    unfold send? at h
    split at h
    · cases h
      simp [budget, exit, Phase.rank, hp]
    · split at h <;> cases h
      simp [budget, Phase.rank, hp]
  · rename_i hp
    cases h
    unfold renderStep
    split <;> simp [budget, breakDown, Phase.rank, hp]
  · rename_i hp
    unfold send? at h
    split at h
    · cases h
      simp [budget, exit, Phase.rank, hp]
    · split at h <;> cases h
      simp [budget, Phase.rank, hp]
  · rename_i hp
    split at h
    · rename_i command commands hc
      cases h
      cases command with
      | next =>
        simp only [budget, perform, Phase.rank, hp, hc, List.length_cons]
        omega
      | setVariables feed =>
        simp only [perform]
        split <;> simp only [budget, Phase.rank, hp, hc, List.length_cons] <;> omega
    · split at h <;> cases h
      simp [budget, exit, Phase.rank, hp]
  · cases h
  · cases h

/-- The worker after all moves it can make by itself. -/
def settle (w : Worker) : Worker :=
  match _h : w.step? with
  | none => w
  | some next => settle next
termination_by w.budget
decreasing_by exact budget_lt_of_step? _h

/-- A command is queued.  It is refused if the queue is full, or the worker has ended. -/
def push (w : Worker) (command : Command) : Except Unavailable Worker :=
  match w.phase with
  | .exited | .broken => .error (.workerExited w.session.id)
  | _ =>
    if w.commands.length < w.capacity then
      .ok { w with commands := w.commands ++ [command] }
    else .error .queueFull

end Worker

/-! ### The caller's side -/

/-- What a caller can choose about an engine. -/
structure EngineOptions where
  /-- The capacity of both queues of a session; zero counts as one. -/
  channelCapacity : Nat
  deriving DecidableEq, Repr

/-- The default options. -/
def EngineOptions.default : EngineOptions := ⟨4⟩

/-- The current session of a caller: its worker, and its state as far as the events received
tell. -/
structure Handle where
  worker : Worker
  observed : SessionState

/-- An engine: the current session, if there is one, and the workers that were let go. -/
structure Engine where
  options : EngineOptions
  nextId : Nat
  current : Option Handle
  released : List Worker

namespace Engine

/-- An engine without a session. -/
def new (options : EngineOptions) : Engine := ⟨options, 1, none, []⟩

/-- The identifier of the current session. -/
def session (e : Engine) : Option Nat := e.current.map fun handle => handle.worker.session.id

/-- The state of the current session, as far as the events received tell. -/
def state (e : Engine) : SessionState :=
  match e.current with
  | none => .idle
  | some handle => handle.observed

/-- The current session is let go. -/
def release (e : Engine) : Engine :=
  match e.current with
  | none => e
  | some handle =>
    { e with current := none, released := { handle.worker with held := false } :: e.released }

/-- A session is started in place of the current one; its identifier, and the engine. -/
def start (e : Engine) (request : StartRequest) : Except Exhausted (Nat × Engine) :=
  let e := e.release
  let capacity := max e.options.channelCapacity 1
  match Memory.reserve capacity Command.slotBytes with
  | .error e => .error e
  | .ok _ =>
    let worker := Worker.new capacity (Session.new e.nextId request)
    .ok (e.nextId, { e with nextId := e.nextId + 1, current := some ⟨worker, .building⟩ })

/-- A command is given to the current session. -/
def command (e : Engine) (command : Command) : Except Failure Engine :=
  match e.current with
  | none => .error (.invalid .noSession)
  | some handle =>
    match handle.worker.push command with
    | .error cause => .error (.unavailable cause)
    | .ok worker => .ok { e with current := some { handle with worker := worker } }

/-- Any request is carried out; the identifier of the session, if one was started. -/
def send (e : Engine) : Request → Except Exhausted (Except Failure (Option Nat × Engine))
  | .start request =>
    match e.start request with
    | .error e => .error e
    | .ok (id, e) => .ok (.ok (some id, e))
  | .next => .ok ((e.command .next).map fun e => (none, e))
  | .setVariables feed => .ok ((e.command (.setVariables feed)).map fun e => (none, e))

/-- The first event that waits for the caller, if there is one, and the engine after it was
received. -/
def receive (e : Engine) : Option Event × Engine :=
  match e.current with
  | none => (none, e)
  | some handle =>
    match handle.worker.events with
    | [] => (none, e)
    | event :: events =>
      (some event,
        { e with
          current := some ⟨{ handle.worker with events := events }, event.stateAfter⟩ })

/-- One move of the current worker, if it can make one. -/
def moveCurrent? (e : Engine) : Option Engine :=
  match e.current with
  | none => none
  | some handle =>
    handle.worker.step?.map fun worker => { e with current := some { handle with worker := worker } }

/-- One move of the `i`-th worker that was let go, if it can make one. -/
def moveReleased? (e : Engine) (i : Nat) : Option Engine :=
  match e.released[i]? with
  | none => none
  | some worker => worker.step?.map fun worker => { e with released := e.released.set i worker }

/-- The engine after all moves that workers can make without the caller. -/
def settle (e : Engine) : Engine :=
  { e with
    current := e.current.map fun handle => { handle with worker := handle.worker.settle }
    released := e.released.map Worker.settle }

end Engine

end GrammarArt
