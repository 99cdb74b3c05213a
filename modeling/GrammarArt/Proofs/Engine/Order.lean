import GrammarArt.Proofs.Engine.Schedule

/-! # No schedule changes the events

The events of a session do not depend on when its worker and the caller move, but only on
the commands that were accepted: they are those of `Session.sequential`, a run without
workers and queues (`received_isPrefix_sequential`).

The invariant (`Worker.Follows`) accounts for every event of the sequential run: it was
received, it waits in the queue of events, or it is still due, that is, it comes of what the
worker does from here on with the commands in its queue.  A move of the worker carries an
event from one of these places to the next, so it leaves their sum as it is.  The sum is
taken for every list of commands that might still be accepted, which is what an accepted
command needs.
-/
namespace GrammarArt

/-! ### The sequential run -/

namespace Session

/-- The events of a session that renders a step, if one is owed, and then goes on. -/
def advanceThen (s : Session) (rest : Session → List Event) : List Event :=
  match s.advance with
  | .error _ => []
  | .ok (event, s) => event.toList ++ rest s

/-- The events of a session that carries out commands, one after the other. -/
def serve (s : Session) : List Command → List Event
  | [] => []
  | .next :: commands => s.advanceThen fun s => s.serve commands
  | .setVariables feed :: commands =>
    match s.setVariables feed with
    | (true, s) => s.advanceThen fun s => s.serve commands
    | (false, s) => s.serve commands

/-- The events of a session that derives its tree, renders the first step, and then carries
out commands. -/
def sequential (s : Session) (commands : List Command) : List Event :=
  match s.derive with
  | .error _ => []
  | .ok (event, s) => event :: s.advanceThen fun s => s.serve commands

end Session

/-! ### What a worker owes -/

namespace Worker

/-- The event that a worker is about to send, or waits to send. -/
def sending (w : Worker) : Option Event :=
  match w.phase with
  | .sendTree event | .sendStep event => some event
  | _ => none

/-- The events that a worker sends from here on if it is given some commands. -/
def due (w : Worker) (commands : List Command) : List Event :=
  match w.phase with
  | .deriveTree => w.session.sequential commands
  | .sendTree event => event :: w.session.advanceThen fun s => s.serve commands
  | .render => w.session.advanceThen fun s => s.serve commands
  | .sendStep event => event :: w.session.serve commands
  | .serve => w.session.serve commands
  | .exited | .broken => []

theorem sending_isPrefix_due (w : Worker) (commands : List Command) :
    w.sending.toList <+: w.due commands := by
  unfold sending due
  cases w.phase with
  | sendTree event => exact ⟨_, rfl⟩
  | sendStep event => exact ⟨_, rfl⟩
  | _ => exact List.nil_prefix

/-! ### A move of the worker -/

variable {w w' : Worker}

/-- An event that is sent goes to the end of the queue. -/
theorem send?_eq_some (hheld : w.held = true) {event : Event} {after : Phase}
    (h : w.send? event after = some w') :
    w' = { w with phase := after, events := w.events ++ [event] } := by
  rw [send?, if_neg (by simp [hheld])] at h
  split at h
  · exact (Option.some.inj h).symm
  · cases h

/-- One worker goes on where another one stands: it may have taken commands, and what it
sent and what it owes is the same, whatever commands are still to come. -/
structure Continues (w w' : Worker) : Prop where
  held_eq : w'.held = w.held
  commands_isSuffix : w'.commands <:+ w.commands
  account_eq : ∀ more, w'.events ++ w'.due (w'.commands ++ more) =
    w.events ++ w.due (w.commands ++ more)

theorem deriveTree_continues (hphase : w.phase = .deriveTree) : w.Continues w.deriveTree := by
  unfold deriveTree
  cases hderive : w.session.derive with
  | error e =>
    refine ⟨rfl, List.suffix_refl _, fun more => ?_⟩
    simp [due, breakDown, hphase, Session.sequential, hderive]
  | ok result =>
    refine ⟨rfl, List.suffix_refl _, fun more => ?_⟩
    simp [due, hphase, Session.sequential, hderive]

theorem renderStep_continues (hphase : w.phase = .render) : w.Continues w.renderStep := by
  unfold renderStep
  cases hadvance : w.session.advance with
  | error e =>
    refine ⟨rfl, List.suffix_refl _, fun more => ?_⟩
    simp [due, breakDown, hphase, Session.advanceThen, hadvance]
  | ok result =>
    obtain ⟨event, session⟩ := result
    cases event with
    | none =>
      refine ⟨rfl, List.suffix_refl _, fun more => ?_⟩
      simp [due, hphase, Session.advanceThen, hadvance]
    | some event =>
      refine ⟨rfl, List.suffix_refl _, fun more => ?_⟩
      simp [due, hphase, Session.advanceThen, hadvance]

theorem perform_continues (hphase : w.phase = .serve) {command : Command}
    {commands : List Command} (hcommands : w.commands = command :: commands) :
    w.Continues ({ w with commands := commands }.perform command) := by
  cases command with
  | next =>
    refine ⟨rfl, hcommands ▸ List.suffix_cons _ _, fun more => ?_⟩
    simp [perform, due, hphase, hcommands, Session.serve]
  | setVariables feed =>
    simp only [perform]
    cases hset : w.session.setVariables feed with
    | mk rerender session =>
      cases rerender with
      | true =>
        refine ⟨rfl, hcommands ▸ List.suffix_cons _ _, fun more => ?_⟩
        simp [due, hphase, hcommands, Session.serve, hset]
      | false =>
        refine ⟨rfl, hcommands ▸ List.suffix_cons _ _, fun more => ?_⟩
        simp [due, hphase, hcommands, Session.serve, hset]

/-- No move of a worker that is held changes its account. -/
theorem step?_continues (hheld : w.held = true) (h : w.step? = some w') : w.Continues w' := by
  unfold step? at h
  split at h
  · rename_i hphase
    cases h
    exact deriveTree_continues hphase
  · rename_i event hphase
    rw [send?_eq_some hheld h]
    refine ⟨rfl, List.suffix_refl _, fun more => ?_⟩
    simp [due, hphase]
  · rename_i hphase
    cases h
    exact renderStep_continues hphase
  · rename_i event hphase
    rw [send?_eq_some hheld h]
    refine ⟨rfl, List.suffix_refl _, fun more => ?_⟩
    simp [due, hphase]
  · rename_i hphase
    split at h
    · rename_i command commands hcommands
      cases h
      exact perform_continues hphase hcommands
    · rw [hheld] at h
      cases h
  · cases h
  · cases h

/-! ### What is kept in a run -/

/-- The worker serves a session: its queue holds the last of the accepted commands, and the
received events, those that it sent, and those that it owes are together the events of the
sequential run, whatever commands are still to come. -/
structure Follows (w : Worker) (s : Session) (accepted : List Command)
    (received : List Event) : Prop where
  held : w.held = true
  commands_isSuffix : w.commands <:+ accepted
  account_eq : ∀ more, received ++ (w.events ++ w.due (w.commands ++ more)) =
    s.sequential (accepted ++ more)

variable {s : Session} {accepted : List Command} {received : List Event}

theorem follows_new (capacity : Nat) (s : Session) : (new capacity s).Follows s [] [] where
  held := rfl
  commands_isSuffix := List.suffix_refl _
  account_eq := fun _ => rfl

theorem Follows.step? (h : w.Follows s accepted received) (hstep : w.step? = some w') :
    w'.Follows s accepted received := by
  obtain ⟨hheld, hcommands, haccount⟩ := step?_continues h.held hstep
  refine ⟨hheld.trans h.held, hcommands.trans h.commands_isSuffix, fun more => ?_⟩
  rw [haccount more]
  exact h.account_eq more

theorem Follows.queue (h : w.Follows s accepted received) (command : Command) :
    (w.queue command).Follows s (accepted ++ [command]) received := by
  refine ⟨h.held, ?_, fun more => ?_⟩
  · obtain ⟨taken, htaken⟩ := h.commands_isSuffix
    exact ⟨taken, by rw [← htaken, Worker.queue, List.append_assoc]⟩
  · -- The command was among those still to come, and is now the first of them.
    have haccount := h.account_eq (command :: more)
    rw [List.append_cons w.commands, List.append_cons accepted] at haccount
    exact haccount

theorem Follows.receive (h : w.Follows s accepted received) {event : Event}
    {events : List Event} (hevents : w.events = event :: events) :
    { w with events := events }.Follows s accepted (received ++ [event]) := by
  refine ⟨h.held, h.commands_isSuffix, fun more => ?_⟩
  have haccount := h.account_eq more
  rw [hevents, List.cons_append, List.append_cons] at haccount
  exact haccount

/-- What a worker has sent, and the event that it is about to send. -/
theorem Follows.isPrefix (h : w.Follows s accepted received) :
    received ++ w.events ++ w.sending.toList <+: s.sequential accepted := by
  have haccount := h.account_eq []
  rw [List.append_nil, List.append_nil, ← List.append_assoc] at haccount
  rw [← haccount, List.prefix_append_right_inj]
  exact w.sending_isPrefix_due _

/-- A worker that waits for a command owes nothing. -/
theorem Follows.eq_of_waiting (h : w.Follows s accepted received) (hphase : w.phase = .serve)
    (hcommands : w.commands = []) : received ++ w.events = s.sequential accepted := by
  have haccount := h.account_eq []
  rw [List.append_nil, hcommands, due, hphase] at haccount
  simpa [Session.serve] using haccount

end Worker

namespace Engine.Transcript

/-- The current worker serves the session that was started last. -/
def Ordered (t : Transcript) : Prop :=
  ∀ id request, t.started = some (id, request) → ∃ handle, t.engine.current = some handle ∧
    handle.worker.Follows (Session.new id request) t.accepted t.received

variable {options : EngineOptions} {t t' : Transcript}

/-- A move within a session keeps the order if the worker of the session still follows it. -/
theorem Ordered.within_session (h : t.Ordered) {move : Move}
    (hmove : ∀ request, move ≠ .start request) (hact : t.act move = .ok t')
    (hfollows : ∀ s handle, t.engine.current = some handle →
      handle.worker.Follows s t.accepted t.received →
        ∃ handle', t'.engine.current = some handle' ∧
          handle'.worker.Follows s t'.accepted t'.received) : t'.Ordered := by
  intro id request hstarted
  rw [started_of_act hmove hact] at hstarted
  obtain ⟨handle, hcurrent, hworker⟩ := h id request hstarted
  exact hfollows _ handle hcurrent hworker

theorem Ordered.act (h : t.Ordered) {move : Move} (hact : t.act move = .ok t') :
    t'.Ordered := by
  cases move with
  | start request =>
    obtain ⟨id, capacity, hstarted, haccepted, hreceived, hcurrent⟩ := current_of_act_start hact
    intro id' request' hstarted'
    cases hstarted.symm.trans hstarted'
    rw [haccepted, hreceived]
    exact ⟨_, hcurrent, Worker.follows_new capacity _⟩
  | command command =>
    refine h.within_session (by simp) hact fun s handle hcurrent hfollows => ?_
    rcases act_command hcurrent command with hrefused | ⟨-, haccepted⟩
    · cases hrefused.symm.trans hact
      exact ⟨handle, hcurrent, hfollows⟩
    · cases haccepted.symm.trans hact
      exact ⟨_, rfl, hfollows.queue command⟩
  | receive =>
    refine h.within_session (by simp) hact fun s handle hcurrent hfollows => ?_
    rcases act_receive hcurrent with ⟨-, hnone⟩ | ⟨event, events, hevents, hreceived⟩
    · cases hnone.symm.trans hact
      exact ⟨handle, hcurrent, hfollows⟩
    · cases hreceived.symm.trans hact
      exact ⟨_, rfl, hfollows.receive hevents⟩
  | work =>
    refine h.within_session (by simp) hact fun s handle hcurrent hfollows => ?_
    rcases act_work hcurrent with ⟨-, hwaits⟩ | ⟨worker, hstep, hworked⟩
    · cases hwaits.symm.trans hact
      exact ⟨handle, hcurrent, hfollows⟩
    · cases hworked.symm.trans hact
      exact ⟨_, rfl, hfollows.step? hstep⟩
  | workReleased i =>
    refine h.within_session (by simp) hact fun s handle hcurrent hfollows => ?_
    obtain ⟨hsame, haccepted, hreceived⟩ := current_of_act_workReleased hact
    rw [haccepted, hreceived]
    exact ⟨handle, hsame.trans hcurrent, hfollows⟩

theorem Reachable.ordered (h : Reachable options t) : t.Ordered := by
  induction h with
  | new => exact nofun
  | act move _ hact ih => exact ih.act hact

/-- **No schedule changes the events of a session.**  However the moves of the caller and of
all workers are mixed, the events that the caller received, those in the queue and the one
that the worker is about to send are in this order the first events of the sequential run of
the accepted commands, and they are all of them if the worker waits for a command.  The
queue of commands holds the accepted commands that are still to be carried out, in order. -/
theorem received_isPrefix_sequential (h : Reachable options t) {id : Nat}
    {request : StartRequest} (hstarted : t.started = some (id, request)) :
    ∃ worker observed, t.engine.current = some ⟨worker, observed⟩ ∧
      worker.commands <:+ t.accepted ∧
      t.received ++ worker.events ++ worker.sending.toList <+:
        (Session.new id request).sequential t.accepted ∧
      (worker.phase = .serve → worker.commands = [] →
        t.received ++ worker.events = (Session.new id request).sequential t.accepted) := by
  obtain ⟨⟨worker, observed⟩, hcurrent, hfollows⟩ := h.ordered id request hstarted
  refine ⟨worker, observed, hcurrent, hfollows.commands_isSuffix, hfollows.isPrefix, ?_⟩
  intro hphase hcommands
  exact hfollows.eq_of_waiting hphase hcommands

/-- A command that is accepted before the worker has made its first move is in its queue
after it. -/
theorem next_isPrefix_sequential :
    ∃ t id request, Reachable ⟨1⟩ t ∧ t.started = some (id, request) ∧
      t.accepted = [.next] ∧
      ∃ worker observed, t.engine.current = some ⟨worker, observed⟩ ∧
        worker.commands <:+ t.accepted ∧
        t.received ++ worker.events ++ worker.sending.toList <+:
          (Session.new id request).sequential t.accepted ∧
        (worker.phase = .serve → worker.commands = [] →
          t.received ++ worker.events = (Session.new id request).sequential t.accepted) := by
  have hstarted : Reachable ⟨1⟩ _ := .act (.start .default) .new rfl
  have hqueued : Reachable ⟨1⟩ _ := .act (.command .next) hstarted rfl
  have hworked : Reachable ⟨1⟩ _ := .act .work hqueued rfl
  exact ⟨_, 1, .default, hworked, rfl, rfl, received_isPrefix_sequential hworked rfl⟩

end Engine.Transcript

end GrammarArt
