import GrammarArt.Proofs.Engine.Deed

/-! # The life of a worker

A worker does not only move by itself.  The caller gives it commands and receives its events, and
lets go of it in the end.  Whatever happens to a worker is an `Incident`, and its life is a run
of them (`Worker.Happens`).

The invariant (`Worker.Keeps`) compares a worker with its life:

* the calls in it are a run of its session;
* as long as the worker is held, the events that came of these calls are those that the caller
  has received, those in the queue and the one that is about to be sent, in this order;
* the session is in the state that the last of these events tells, unless it is about to be
  rendered again.

Once the caller has let go of it, a worker keeps to itself (`after_letGo`): it comes to one more
event at most, which is lost.
-/
namespace GrammarArt

/-! ### Runs of labelled steps -/

/-- A run of steps, with their labels. -/
inductive Steps {State Label : Type} (step : State → Label → State → Prop) (first : State) :
    List Label → State → Prop where
  | nil : Steps step first [] first
  | snoc {past : List Label} {s s' : State} {label : Label} (before : Steps step first past s)
    (h : step s label s') : Steps step first (past ++ [label]) s'

namespace Steps

variable {State Label : Type} {step : State → Label → State → Prop} {first s : State}

end Steps

/-- After an event, a session renders, is done, or has failed. -/
theorem Event.stateAfter_eq (event : Event) :
    event.stateAfter = .rendering ∨ event.stateAfter = .done ∨ event.stateAfter = .failed := by
  cases event with
  | expression session canonical shader => exact .inl rfl
  | progress session current total image =>
    by_cases hlast : current = total
    · exact .inr (.inl (if_pos hlast))
    · exact .inl (if_neg hlast)
  | failed session error => exact .inr (.inr rfl)

namespace Worker

/-! ### Lives -/

/-- What happens to a worker. -/
inductive Incident where
  /-- It does something itself. -/
  | deed (deed : Deed)
  /-- A command goes into its queue. -/
  | command (command : Command)
  /-- Its first event is received. -/
  | receive (event : Event)
  /-- The caller lets go of it. -/
  | letGo

/-- The worker is let go. -/
def letGo (w : Worker) : Worker := { w with held := false }

/-- The steps of a life.  Once the worker is let go, only it itself acts. -/
inductive Happens (w : Worker) : Incident → Worker → Prop where
  | deed {deed : Deed} {w' : Worker} (h : w.Does deed w') : Happens w (.deed deed) w'
  | command {command : Command} {w' : Worker} (hheld : w.held = true)
    (h : w.push command = .ok w') : Happens w (.command command) w'
  | receive {event : Event} {events : List Event} (hheld : w.held = true)
    (h : w.events = event :: events) : Happens w (.receive event) { w with events := events }
  | letGo (hheld : w.held = true) : Happens w .letGo w.letGo

/-- The call of a session in an incident. -/
def Incident.call? : Incident → Option (Session.Operation × Session.Outcome)
  | .deed (.call op o) => some (op, o)
  | _ => none

/-- The calls of a session in a life. -/
def calls (life : List Incident) : List (Session.Operation × Session.Outcome) :=
  life.filterMap Incident.call?

/-- The events that came of the calls in a life. -/
def made (life : List Incident) : List Event := (calls life).filterMap fun call => call.2.event

/-- The events that were received in a life. -/
def received (life : List Incident) : List Event :=
  life.filterMap fun incident => match incident with | .receive event => some event | _ => none

variable {w w' : Worker} {deed : Deed} {incident : Incident} {life : List Incident}

theorem calls_append_call (life : List Incident) (op : Session.Operation) (o : Session.Outcome) :
    calls (life ++ [.deed (.call op o)]) = calls life ++ [(op, o)] := by
  simp [calls, Incident.call?]

theorem calls_append_of_none (h : incident.call? = none) :
    calls (life ++ [incident]) = calls life := by
  simp [calls, h]

theorem made_append_call (life : List Incident) (op : Session.Operation) (o : Session.Outcome) :
    made (life ++ [.deed (.call op o)]) = made life ++ o.event.toList := by
  rw [made, calls_append_call, List.filterMap_append]
  cases h : o.event with
  | none => simp [h, made]
  | some event => simp [h, made]

theorem made_append_of_none (h : incident.call? = none) :
    made (life ++ [incident]) = made life := by
  rw [made, calls_append_of_none h, made]

@[simp] theorem received_append_deed (life : List Incident) (deed : Deed) :
    received (life ++ [.deed deed]) = received life := by
  simp [received]

@[simp] theorem received_append_command (life : List Incident) (command : Command) :
    received (life ++ [.command command]) = received life := by
  simp [received]

@[simp] theorem received_append_receive (life : List Incident) (event : Event) :
    received (life ++ [.receive event]) = received life ++ [event] := by
  simp [received]

/-! ### What is kept in a life -/

/-- How the session of a worker stands to the last event that came of it. -/
def Stands (w : Worker) (last : Option Event) : Prop :=
  match w.phase with
  | .deriveTree => w.session.state = .idle ∧ last = none
  | .sendTree _ | .sendStep _ | .serve =>
    ∃ event, last = some event ∧ w.session.state = event.stateAfter
  | .render =>
    ∃ event, last = some event ∧
      (w.session.state = event.stateAfter ∨ w.session.state = .rendering)
  | .exited =>
    w.session.state = .cancelled ∨ w.session.state = .done ∨ w.session.state = .failed
  | .broken => True

/-- A worker of a session agrees with its life. -/
structure Keeps (id : Nat) (request : StartRequest) (life : List Incident) (w : Worker) :
    Prop where
  ran : Session.Ran (Session.new id request) (calls life) w.session
  made_eq : w.held = true → made life = received life ++ w.events ++ w.sending.toList
  stands : w.Stands (made life).getLast?

variable {id : Nat} {request : StartRequest}

theorem keeps_new (capacity id : Nat) (request : StartRequest) :
    (new capacity (Session.new id request)).Keeps id request [] where
  ran := .start
  made_eq := fun _ => rfl
  stands := ⟨rfl, rfl⟩

theorem sending_of_operation? {op : Session.Operation}
    (hop : Phase.operation? w.phase = some op) : w.sending = none := by
  rcases operation?_eq_some_iff.mp hop with ⟨hphase, -⟩ | ⟨hphase, -⟩
  · rw [sending, hphase]
  · rw [sending, hphase]

/-- What came of a call that was due is about to be sent. -/
theorem sending_afterCall {op : Session.Operation} (hop : Phase.operation? w.phase = some op)
    (o : Session.Outcome) :
    { w with session := o.session, phase := Phase.afterCall w.phase o.event }.sending =
      o.event := by
  rcases operation?_eq_some_iff.mp hop with ⟨hphase, -⟩ | ⟨hphase, -⟩
  · cases h : o.event with
    | none => rfl
    | some event => simp only [sending, hphase, Phase.afterCall]
  · cases h : o.event with
    | none => rfl
    | some event => simp only [sending, hphase, Phase.afterCall]

theorem sending_afterSend {event : Event} (hsending : w.sending = some event)
    (events : List Event) :
    { w with phase := Phase.afterSend w.phase, events := events }.sending = none := by
  unfold sending at hsending
  split at hsending
  · rename_i hphase
    simp only [sending, hphase, Phase.afterSend]
  · rename_i hphase
    simp only [sending, hphase, Phase.afterSend]
  · cases hsending

/-- A session that has something to say is in the state that it says. -/
theorem Stands.of_sending {last : Option Event} (h : w.Stands last) {event : Event}
    (hsending : w.sending = some event) :
    ∃ event, last = some event ∧ w.session.state = event.stateAfter := by
  unfold sending at hsending
  unfold Stands at h
  split at hsending
  · rename_i hphase
    rwa [hphase] at h
  · rename_i hphase
    rwa [hphase] at h
  · cases hsending

/-- After an operation that was due, the session is in the state that its event tells. -/
theorem Keeps.stands_call (h : w.Keeps id request life) {op : Session.Operation}
    {o : Session.Outcome} (hop : Phase.operation? w.phase = some op)
    (hcall : w.session.perform op = .ok o) :
    { w with session := o.session, phase := Phase.afterCall w.phase o.event }.Stands
      (made life ++ o.event.toList).getLast? := by
  have hmove := h.ran.move hcall
  cases hevent : o.event with
  | some event =>
    have hlast : (made life ++ [event]).getLast? = some event := List.getLast?_concat
    have hstate := (hmove.of_event hevent).2
    rcases operation?_eq_some_iff.mp hop with ⟨hphase, rfl⟩ | ⟨hphase, rfl⟩
    · simp only [Stands, hphase, Phase.afterCall, Option.toList_some, hlast]
      exact ⟨event, rfl, hstate⟩
    · simp only [Stands, hphase, Phase.afterCall, Option.toList_some, hlast]
      exact ⟨event, rfl, hstate⟩
  | none =>
    rw [Option.toList_none, List.append_nil]
    rcases operation?_eq_some_iff.mp hop with ⟨hphase, rfl⟩ | ⟨hphase, rfl⟩
    · obtain ⟨event, session, -, rfl⟩ := Session.perform_derive_eq_ok_iff.mp hcall
      cases hevent
    · -- Nothing was owed, so the session did not render, and the last event tells its state.
      obtain ⟨hnot, hsame⟩ :=
        Session.of_perform_advance_none h.ran.standing h.ran.coherent hcall hevent
      have hstands := h.stands
      simp only [Stands, hphase] at hstands
      obtain ⟨event, hlast, hstate⟩ := hstands
      simp only [Stands, Phase.afterCall, hsame]
      exact ⟨event, hlast, hstate.resolve_right hnot⟩

theorem Stands.afterSend {last : Option Event} (h : w.Stands last) {event : Event}
    (hsending : w.sending = some event) (events : List Event) :
    { w with phase := Phase.afterSend w.phase, events := events }.Stands last := by
  obtain ⟨event', hlast, hstate⟩ := h.of_sending hsending
  unfold sending at hsending
  split at hsending
  · rename_i hphase
    simp only [Stands, hphase, Phase.afterSend]
    exact ⟨event', hlast, .inl hstate⟩
  · rename_i hphase
    simp only [Stands, hphase, Phase.afterSend]
    exact ⟨event', hlast, hstate⟩
  · cases hsending

/-- A worker that leaves does not leave its session at work. -/
theorem Stands.state_cancel {last : Option Event} (h : w.Stands last)
    (hphase : w.sending ≠ none ∨ w.phase = .serve ∧ w.commands = []) :
    w.session.cancel.state = .cancelled ∨ w.session.cancel.state = .done ∨
      w.session.cancel.state = .failed := by
  have htold : ∃ event, last = some event ∧ w.session.state = event.stateAfter := by
    rcases hphase with hsending | ⟨hphase, -⟩
    · obtain ⟨event, hevent⟩ := Option.ne_none_iff_exists'.mp hsending
      exact h.of_sending hevent
    · rwa [Stands, hphase] at h
  obtain ⟨event, -, hstate⟩ := htold
  unfold Session.cancel
  split
  · exact .inl rfl
  · -- An abandonment without effect finds the session at its end.
    rename_i hnot
    rcases event.stateAfter_eq with hevent | hevent
    · exact absurd (.inr (hstate.trans hevent)) hnot
    · rwa [hstate, or_iff_right (by rcases hevent with h | h <;> simp [h])]

/-- What is no call leaves the session and its events as they were. -/
theorem Keeps.of_call?_eq_none (h : w.Keeps id request life) (hcall : incident.call? = none)
    (hsession : w'.session = w.session)
    (hmade : w'.held = true →
      made life = received (life ++ [incident]) ++ w'.events ++ w'.sending.toList)
    (hstands : w'.Stands (made life).getLast?) : w'.Keeps id request (life ++ [incident]) where
  ran := by
    rw [calls_append_of_none hcall, hsession]
    exact h.ran
  made_eq := by
    rw [made_append_of_none hcall]
    exact hmade
  stands := by
    rw [made_append_of_none hcall]
    exact hstands

/-- **A worker agrees with its life after whatever it does.** -/
theorem Keeps.does (h : w.Keeps id request life) (hdoes : w.Does deed w') :
    w'.Keeps id request (life ++ [.deed deed]) := by
  cases hdoes with
  | call hop hcall =>
    refine ⟨?_, fun hheld => ?_, ?_⟩
    · rw [calls_append_call]
      exact h.ran.call hcall
    · rw [made_append_call, received_append_deed, sending_afterCall hop, h.made_eq hheld,
        sending_of_operation? hop, Option.toList_none, List.append_nil]
    · rw [made_append_call]
      exact h.stands_call hop hcall
  | breakDown hop hcall =>
    refine h.of_call?_eq_none rfl rfl (fun hheld => ?_) trivial
    have hmade := h.made_eq hheld
    rwa [sending_of_operation? hop, ← received_append_deed life] at hmade
  | send hheld hsending hroom =>
    refine h.of_call?_eq_none rfl rfl (fun _ => ?_) (h.stands.afterSend hsending _)
    rw [received_append_deed, sending_afterSend hsending, h.made_eq hheld, hsending]
    simp only [Option.toList_some, Option.toList_none, List.append_nil, List.append_assoc]
  | takeNext hphase hcommands =>
    refine h.of_call?_eq_none rfl rfl (fun hheld => ?_) ?_
    · have hmade := h.made_eq hheld
      rwa [sending, hphase, ← received_append_deed life] at hmade
    · have hstands := h.stands
      rw [Stands, hphase] at hstands
      obtain ⟨event, hlast, hstate⟩ := hstands
      exact ⟨event, hlast, .inl hstate⟩
  | @setVariables feed commands o hphase hcommands hcall =>
    have hstate := Session.state_setVariables w.session feed
    rw [Session.perform_setVariables] at hcall
    cases hcall
    have hstands := h.stands
    rw [Stands, hphase] at hstands
    obtain ⟨event, hlast, htold⟩ := hstands
    -- No event tells that the session renders again, which is why `Stands` allows for it.
    refine ⟨?_, fun hheld => ?_, ?_⟩
    · rw [calls_append_call]
      exact h.ran.call (Session.perform_setVariables _ _)
    · have hmade := h.made_eq hheld
      rw [sending, hphase] at hmade
      rw [made_append_call, received_append_deed, hmade]
      cases (w.session.setVariables feed).1 with
      | true => simp [sending]
      | false => simp [sending]
    · rw [made_append_call, Option.toList_none, List.append_nil]
      cases hrerender : (w.session.setVariables feed).1 with
      | true =>
        rw [hrerender] at hstate
        exact ⟨event, hlast, .inr hstate⟩
      | false =>
        rw [hrerender] at hstate
        exact ⟨event, hlast, hstate.trans htold⟩
  | leave hheld hphase hcall =>
    cases hcall
    refine ⟨?_, fun hheld' => ?_, h.stands.state_cancel hphase⟩
    · rw [calls_append_call]
      exact h.ran.call rfl
    · rw [hheld] at hheld'
      cases hheld'

/-- A command that is accepted goes to the end of the queue. -/
theorem eq_queue_of_push {command : Command} (h : w.push command = .ok w') :
    w' = w.queue command := by
  unfold push at h
  split at h
  · cases h
  · cases h
  · split at h
    · cases h
      rfl
    · cases h

/-- **A worker agrees with its life after whatever happens to it.** -/
theorem Keeps.happens (h : w.Keeps id request life) (hhappens : w.Happens incident w') :
    w'.Keeps id request (life ++ [incident]) := by
  cases hhappens with
  | deed hdoes => exact h.does hdoes
  | command hheld hpush =>
    cases eq_queue_of_push hpush
    refine h.of_call?_eq_none rfl rfl (fun hheld => ?_) h.stands
    rw [received_append_command]
    exact h.made_eq hheld
  | receive hheld hevents =>
    refine h.of_call?_eq_none rfl rfl (fun hheld => ?_) h.stands
    rw [received_append_receive, h.made_eq hheld, hevents]
    simp only [List.append_assoc, List.singleton_append]
    rfl
  | letGo hheld => exact h.of_call?_eq_none rfl rfl nofun h.stands

/-- **A worker agrees with its life.** -/
theorem keeps_of_steps {capacity : Nat}
    (h : Steps Happens (new capacity (Session.new id request)) life w) :
    w.Keeps id request life := by
  induction h with
  | nil => exact keeps_new capacity id request
  | snoc before hhappens ih => exact ih.happens hhappens

/-- A worker does not leave as long as it is held. -/
theorem Does.not_exited (h : w.Does deed w') (hheld : w'.held = true) : w'.phase ≠ .exited := by
  cases h with
  | call hop hcall =>
    rcases operation?_eq_some_iff.mp hop with ⟨hphase, -⟩ | ⟨hphase, -⟩
    · rw [hphase]
      unfold Phase.afterCall
      split <;> nofun
    · rw [hphase]
      unfold Phase.afterCall
      split <;> nofun
  | breakDown hop hcall => nofun
  | send hheld' hsending hroom =>
    show Phase.afterSend w.phase ≠ .exited
    unfold Phase.afterSend
    split <;> nofun
  | takeNext hphase hcommands => nofun
  | setVariables hphase hcommands hcall =>
    dsimp only
    split <;> nofun
  | leave hheld' hphase hcall =>
    rw [hheld'] at hheld
    cases hheld

theorem not_exited_of_steps {capacity : Nat} {s : Session}
    (h : Steps Happens (new capacity s) life w) (hheld : w.held = true) :
    w.phase ≠ .exited := by
  induction h with
  | nil => nofun
  | snoc before hhappens ih =>
    cases hhappens with
    | deed hdoes => exact hdoes.not_exited hheld
    | command hheld' hpush =>
      cases eq_queue_of_push hpush
      exact ih hheld'
    | receive hheld' hevents => exact ih hheld'
    | letGo hheld' => cases hheld

/-! ### Lives of their own -/

theorem Does.held_eq (h : w.Does deed w') : w'.held = w.held := by
  cases h with
  | _ => rfl

end Worker

end GrammarArt
