import GrammarArt.Engine

/-! # Runs of an engine

The caller and all the workers that were ever started move one at a time, in any order: a
schedule is a sequence of moves, and nothing is assumed of it.  What has happened so far is
kept in a `Transcript`: the engine, the request that was started last and the identifier of
its session, the commands that this session has accepted since, and the events that have
been received from it.

A command that is refused leaves everything as it was.  A `start` that finds no room for the
queues breaks the caller down, and no move follows it.
-/
namespace GrammarArt

/-- The worker with one more command in its queue. -/
def Worker.queue (w : Worker) (command : Command) : Worker :=
  { w with commands := w.commands ++ [command] }

namespace Engine

/-- The engine with another worker for its current session, and another view of it. -/
def withCurrent (e : Engine) (worker : Worker) (observed : SessionState) : Engine :=
  { e with current := some ⟨worker, observed⟩ }

/-- A move of the caller, of the current worker, or of a worker that was let go. -/
inductive Move where
  | start (request : StartRequest)
  | command (command : Command)
  /-- The caller asks for an event, and gets one if one waits. -/
  | receive
  | work
  | workReleased (i : Nat)

/-- An engine, and what has passed between it and the caller since the last start. -/
structure Transcript where
  engine : Engine
  started : Option (Nat × StartRequest)
  accepted : List Command
  received : List Event

namespace Transcript

/-- Nothing has happened yet. -/
def new (options : EngineOptions) : Transcript := ⟨Engine.new options, none, [], []⟩

/-- What has happened after one more move.  A worker that waits or has ended stays where
it is. -/
def act (t : Transcript) : Move → Except Exhausted Transcript
  | .start request =>
    match t.engine.start request with
    | .error e => .error e
    | .ok (id, engine) => .ok ⟨engine, some (id, request), [], []⟩
  | .command command =>
    match t.engine.command command with
    | .error _ => .ok t
    | .ok engine => .ok { t with engine := engine, accepted := t.accepted ++ [command] }
  | .receive =>
    let (event, engine) := t.engine.receive
    .ok { t with engine := engine, received := t.received ++ event.toList }
  | .work => .ok { t with engine := t.engine.moveCurrent?.getD t.engine }
  | .workReleased i => .ok { t with engine := (t.engine.moveReleased? i).getD t.engine }

/-- Some schedule leads here. -/
inductive Reachable (options : EngineOptions) : Transcript → Prop where
  | new : Reachable options (new options)
  | act {t t' : Transcript} (move : Move) :
    Reachable options t → t.act move = .ok t' → Reachable options t'

/-! ### The current worker in a move -/

variable {t t' : Transcript} {handle : Handle}

/-- The worker of a session that was just started has done nothing yet. -/
theorem current_of_act_start {request : StartRequest} (h : t.act (.start request) = .ok t') :
    ∃ id capacity, t'.started = some (id, request) ∧ t'.accepted = [] ∧ t'.received = [] ∧
      t'.engine.current = some ⟨Worker.new capacity (Session.new id request), .building⟩ := by
  simp only [act, start] at h
  split at h
  · cases h
  · rename_i id engine hstart
    split at hstart
    · cases hstart
    · cases hstart
      cases h
      exact ⟨_, _, rfl, rfl, rfl, rfl⟩

/-- Only a start changes which session is the current one. -/
theorem started_of_act {move : Move} (hmove : ∀ request, move ≠ .start request)
    (h : t.act move = .ok t') : t'.started = t.started := by
  cases move with
  | start request => exact absurd rfl (hmove request)
  | command command =>
    simp only [act] at h
    split at h
    · cases h
      rfl
    · cases h
      rfl
  | receive | work | workReleased i =>
    cases h
    rfl

/-- A command is refused and nothing has happened, or it is the last one in the queue. -/
theorem act_command (hcurrent : t.engine.current = some handle) (command : Command) :
    t.act (.command command) = .ok t ∨
      handle.worker.commands.length < handle.worker.capacity ∧
      t.act (.command command) =
        .ok ⟨t.engine.withCurrent (handle.worker.queue command) handle.observed,
          t.started, t.accepted ++ [command], t.received⟩ := by
  simp only [act, Engine.command, hcurrent]
  cases hpush : handle.worker.push command with
  | error cause => exact Or.inl rfl
  | ok worker =>
    right
    unfold Worker.push at hpush
    split at hpush
    · cases hpush
    · cases hpush
    · split at hpush
      · rename_i hroom
        cases hpush
        exact ⟨hroom, rfl⟩
      · cases hpush

/-- No event waits and nothing has happened, or the first one in the queue is received. -/
theorem act_receive (hcurrent : t.engine.current = some handle) :
    handle.worker.events = [] ∧ t.act .receive = .ok t ∨
      ∃ event events, handle.worker.events = event :: events ∧
        t.act .receive = .ok ⟨t.engine.withCurrent { handle.worker with events := events }
          event.stateAfter, t.started, t.accepted, t.received ++ [event]⟩ := by
  have hact : t.act .receive = .ok { t with
      engine := t.engine.receive.2, received := t.received ++ t.engine.receive.1.toList } := rfl
  simp only [hact, Engine.receive, hcurrent]
  cases hevents : handle.worker.events with
  | nil =>
    left
    simp
  | cons event events => exact Or.inr ⟨event, events, rfl, rfl⟩

/-- The worker waits or has ended and nothing has happened, or it makes its move. -/
theorem act_work (hcurrent : t.engine.current = some handle) :
    handle.worker.step? = none ∧ t.act .work = .ok t ∨
      ∃ worker, handle.worker.step? = some worker ∧
        t.act .work = .ok { t with engine := t.engine.withCurrent worker handle.observed } := by
  have hact : t.act .work = .ok { t with engine := t.engine.moveCurrent?.getD t.engine } := rfl
  simp only [hact, moveCurrent?, hcurrent]
  cases hstep : handle.worker.step? with
  | none => exact Or.inl ⟨rfl, rfl⟩
  | some worker => exact Or.inr ⟨worker, rfl, rfl⟩

/-- A worker that was let go moves on its own. -/
theorem current_of_act_workReleased {i : Nat} (h : t.act (.workReleased i) = .ok t') :
    t'.engine.current = t.engine.current ∧ t'.accepted = t.accepted ∧
      t'.received = t.received := by
  cases h
  refine ⟨?_, rfl, rfl⟩
  show ((t.engine.moveReleased? i).getD t.engine).current = t.engine.current
  unfold moveReleased?
  cases t.engine.released[i]? with
  | none => rfl
  | some worker =>
    cases hstep : worker.step? with
    | none => simp [hstep]
    | some worker' => simp [hstep]

end Transcript

end Engine

end GrammarArt
