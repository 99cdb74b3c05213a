import GrammarArt.Proofs.Engine.History

/-! # What the caller knows of a session

The caller does not see a session, but only the events that it receives from it, and takes from
them what state the session is in.  The session has meanwhile gone on, and it goes on in silence
as well: a new feed may make it render again, and no event tells.

What the caller knows is never wrong but only late: it is the state that the session was in when
it came to the last event that was received.  And it is not late for long: once the worker waits
for a command and every event was received, it is the state of the session
(`view_agrees`).
-/
namespace GrammarArt

namespace Worker

/-- The events of a life, each with the state that the session was in when it came to it. -/
def shown (life : List Incident) : List (Event × SessionState) :=
  (calls life).filterMap fun call => call.2.event.map fun event => (event, call.2.session.state)

variable {w : Worker} {id : Nat} {request : StartRequest} {life : List Incident}

theorem map_fst_shown (life : List Incident) : (shown life).map Prod.fst = made life := by
  rw [shown, made, List.map_filterMap]
  congr 1
  funext call
  cases call.2.event with
  | none => rfl
  | some event => rfl

theorem Keeps.state_of_mem_shown (h : w.Keeps id request life) {pair : Event × SessionState}
    (hpair : pair ∈ shown life) : pair.2 = pair.1.stateAfter := by
  obtain ⟨call, hcall, hshown⟩ := List.mem_filterMap.mp hpair
  obtain ⟨event, hevent, rfl⟩ := Option.map_eq_some_iff.mp hshown
  exact (h.ran.of_event hcall hevent).2

/-- The worker has ended, in whichever way. -/
def ended (w : Worker) : Bool :=
  match w.phase with
  | .exited | .broken => true
  | _ => false

theorem ended_eq_false_iff : w.ended = false ↔ w.phase ≠ .exited ∧ w.phase ≠ .broken := by
  unfold ended
  cases w.phase with
  | _ => simp

/-- A worker that has not ended accepts a command if there is room for it. -/
theorem push_of_not_ended (h : w.ended = false) (command : Command) : w.push command =
    if w.commands.length < w.capacity then .ok (w.queue command) else .error .queueFull := by
  obtain ⟨hexited, hbroken⟩ := ended_eq_false_iff.mp h
  unfold push
  split
  · rename_i hphase
    exact absurd hphase hexited
  · rename_i hphase
    exact absurd hphase hbroken
  · rfl

end Worker

namespace Engine

variable {options : EngineOptions} {e e' : Engine} {history : List Happening}
  {happening : Happening} {handle : Handle}

/-! ### What the caller observes -/

theorem received_lifeOf_deed (history : List Happening) (id id' : Nat) (deed : Worker.Deed) :
    Worker.received (lifeOf id (history ++ [.worker id' (.deed deed)])) =
      Worker.received (lifeOf id history) := by
  by_cases hid : id' = id
  · subst hid
    rw [lifeOf_append_self, Worker.received_append_deed]
  · rw [lifeOf_append_of_ne hid]

theorem Records.observed_step (h : Records history e)
    (hobserved : ∀ handle, e.current = some handle →
      handle.observed = told (Worker.received (lifeOf handle.worker.session.id history)))
    (hstep : Step e happening e') : ∀ handle, e'.current = some handle →
      handle.observed =
        told (Worker.received (lifeOf handle.worker.session.id (history ++ [happening]))) := by
  intro handle hhandle
  cases hstep with
  | start hcurrent hstart =>
    obtain ⟨rfl, capacity, -, rfl⟩ := start_eq_ok hcurrent hstart
    cases hhandle
    have hlife := h.silent e.nextId fun hmem => (h.fresh _ hmem).false
    show SessionState.building = told (Worker.received (lifeOf e.nextId _))
    rw [lifeOf_append, hlife]
    rfl
  | startFailed hcurrent =>
    rw [hcurrent] at hhandle
    cases hhandle
  | letGo hcurrent =>
    rw [release, hcurrent] at hhandle
    cases hhandle
  | @command current command e' hcurrent hcommand =>
    obtain ⟨w, hpush, rfl⟩ := command_eq_ok hcurrent hcommand
    cases Worker.eq_queue_of_push hpush
    cases hhandle
    show current.observed = told (Worker.received (lifeOf current.worker.session.id _))
    rw [lifeOf_append_self, Worker.received_append_command]
    exact hobserved _ hcurrent
  | refuse hrefused =>
    rw [lifeOf_append]
    exact (List.append_nil _).symm ▸ hobserved _ hhandle
  | @receive current event e' hcurrent hreceive =>
    obtain ⟨events, hevents, rfl⟩ := receive_eq_some hcurrent hreceive
    cases hhandle
    show event.stateAfter = told (Worker.received (lifeOf current.worker.session.id _))
    rw [lifeOf_append_self, Worker.received_append_receive, told, List.getLast?_concat]
  | noEvent hnone =>
    cases receive_eq_none hnone
    rw [lifeOf_append]
    exact (List.append_nil _).symm ▸ hobserved _ hhandle
  | work hcurrent hdoes =>
    obtain ⟨hid, -⟩ := (h.recorded _ (mem_workers hcurrent)).happens (.deed hdoes)
    cases hhandle
    rw [received_lifeOf_deed]
    exact hid ▸ hobserved _ hcurrent
  | workReleased hi hdoes =>
    rw [received_lifeOf_deed]
    exact hobserved _ hhandle

theorem Run.observed_eq (h : Run options history e) : ∀ handle, e.current = some handle →
    handle.observed = told (Worker.received (lifeOf handle.worker.session.id history)) := by
  induction h with
  | nil => exact fun _ hnone => absurd hnone.symm (Option.some_ne_none _)
  | snoc before hstep ih => exact (Run.records before).observed_step ih hstep

/-! ### Waiting for an event -/

/-- What comes of waiting for an event, and the engine after it; none as long as the caller
waits, because there is no event yet and the worker has not ended. -/
def await (e : Engine) : Option (Option Event × Engine) :=
  match e.receive with
  | (some event, e') => some (some event, e')
  | (none, e') => if e.current.all fun handle => handle.worker.ended then some (none, e') else none

theorem await_eq_event {event : Event} (h : e.await = some (some event, e')) :
    e.receive = (some event, e') := by
  unfold await at h
  split at h
  · cases h
    assumption
  · split at h <;> cases h

/-- Waiting comes to nothing only if the worker has ended. -/
theorem await_eq_nothing (hcurrent : e.current = some handle) (h : e.await = some (none, e')) :
    e' = e ∧ handle.worker.ended = true := by
  unfold await at h
  split at h
  · cases h
  · rename_i hnone
    rw [hcurrent, Option.all_some] at h
    split at h
    · rename_i hended
      cases h
      exact ⟨receive_eq_none hnone, hended⟩
    · cases h

/-- The caller waits on only if there is no event and the worker has not ended. -/
theorem of_await_eq_none (hcurrent : e.current = some handle) (h : e.await = none) :
    handle.worker.events = [] ∧ handle.worker.ended = false := by
  unfold await at h
  split at h
  · cases h
  · rename_i hnone
    rw [hcurrent, Option.all_some, ite_eq_right_iff] at h
    refine ⟨?_, Bool.eq_false_iff.mpr fun hended => nomatch h hended⟩
    simp only [receive, hcurrent] at hnone
    split at hnone
    · assumption
    · cases hnone

theorem state_eq (hcurrent : e.current = some handle) : e.state = handle.observed := by
  rw [state, hcurrent]

/-- A command is refused because the worker has ended only if it has. -/
theorem command_ne_workerExited (hcurrent : e.current = some handle)
    (hended : handle.worker.ended = false) (command : Command) (id : Nat) :
    e.command command ≠ .error (.unavailable (.workerExited id)) := by
  intro h
  simp only [Engine.command, hcurrent] at h
  split at h
  · rename_i hpush
    cases h
    rw [Worker.push_of_not_ended hended] at hpush
    split at hpush <;> cases hpush
  · cases h

theorem Run.phase_ne_exited (h : Run options history e) (hcurrent : e.current = some handle) :
    handle.worker.phase ≠ .exited := by
  have hrecords := Run.records h
  obtain ⟨capacity, request, -, hlife⟩ := hrecords.recorded _ (mem_workers hcurrent)
  exact Worker.not_exited_of_steps hlife (hrecords.held.current handle hcurrent)

/-- The caller knows the state that the session was in when it came to the last event received. -/
theorem Run.exists_shown (h : Run options history e) (hcurrent : e.current = some handle) :
    ∃ seen rest, Worker.shown (lifeOf handle.worker.session.id history) = seen ++ rest ∧
      seen.map Prod.fst = Worker.received (lifeOf handle.worker.session.id history) ∧
      e.state = (seen.getLast?.map Prod.snd).getD .building := by
  have hrecords := Run.records h
  obtain ⟨request, -, hkeeps⟩ := (hrecords.recorded _ (mem_workers hcurrent)).keeps
  have hmade := hkeeps.made_eq (hrecords.held.current _ hcurrent)
  rw [← Worker.map_fst_shown, List.append_assoc] at hmade
  -- What was received comes first among the events made, and so do the states with them.
  obtain ⟨seen, rest, hshown, hseen, -⟩ := List.map_eq_append_iff.mp hmade
  refine ⟨seen, rest, hshown, hseen, ?_⟩
  rw [state_eq hcurrent, h.observed_eq handle hcurrent, ← hseen, told, List.getLast?_map]
  cases hlast : seen.getLast? with
  | none => rfl
  | some pair =>
    have hmem : pair ∈ Worker.shown (lifeOf handle.worker.session.id history) := by
      rw [hshown]
      exact List.mem_append_left _ (List.mem_of_getLast? hlast)
    exact (hkeeps.state_of_mem_shown hmem).symm

/-- Once all that a waiting worker sent was received, the caller knows the state of the session. -/
theorem Run.state_of_serve (h : Run options history e) (hcurrent : e.current = some handle)
    (hphase : handle.worker.phase = .serve) (hevents : handle.worker.events = []) :
    e.state = handle.worker.session.state ∧
      (e.state = .rendering ∨ e.state = .done ∨ e.state = .failed) := by
  have hrecords := Run.records h
  obtain ⟨request, -, hkeeps⟩ := (hrecords.recorded _ (mem_workers hcurrent)).keeps
  have hmade := hkeeps.made_eq (hrecords.held.current _ hcurrent)
  rw [hevents, Worker.sending, hphase, Option.toList_none, List.append_nil, List.append_nil]
    at hmade
  have hstands := hkeeps.stands
  rw [Worker.Stands, hphase] at hstands
  obtain ⟨event, hlast, hstate⟩ := hstands
  have hview : e.state = event.stateAfter := by
    rw [state_eq hcurrent, h.observed_eq handle hcurrent, ← hmade, told, hlast]
  exact ⟨hview.trans hstate.symm, hview ▸ event.stateAfter_eq⟩

/-- **What the caller knows of a session.**  In any run, and while there is a current session:

* once its worker waits for a command and every event was received, the caller knows the state
  of the session;
* at any time it knows the state that the session was in right after it came to the last event
  that was received, and until the first one that the tree is being derived;
* the worker does not leave, so unless it breaks down, no command is refused because it has
  ended, and waiting for an event never comes to nothing. -/
theorem view_agrees (h : Run options history e) (hcurrent : e.current = some handle) :
    (handle.worker.phase = .serve → handle.worker.commands = [] → handle.worker.events = [] →
      e.state = handle.worker.session.state ∧
        (e.state = .rendering ∨ e.state = .done ∨ e.state = .failed)) ∧
    (∃ seen rest, Worker.shown (lifeOf handle.worker.session.id history) = seen ++ rest ∧
      seen.map Prod.fst = Worker.received (lifeOf handle.worker.session.id history) ∧
      e.state = (seen.getLast?.map Prod.snd).getD .building) ∧
    handle.worker.phase ≠ .exited ∧
    (handle.worker.phase ≠ .broken →
      (∀ command id, e.command command ≠ .error (.unavailable (.workerExited id))) ∧
        ∀ e', e.await ≠ some (none, e')) := by
  refine ⟨fun hphase _ hevents => h.state_of_serve hcurrent hphase hevents,
    h.exists_shown hcurrent, h.phase_ne_exited hcurrent, fun hnot => ?_⟩
  have hended := Worker.ended_eq_false_iff.mpr ⟨h.phase_ne_exited hcurrent, hnot⟩
  refine ⟨command_ne_workerExited hcurrent hended, fun e' hnothing => ?_⟩
  rw [(await_eq_nothing hcurrent hnothing).2] at hended
  cases hended

/-- The caller receives that a session failed, whose worker then waits for commands. -/
theorem view_agrees_failed :
    ∃ history e handle, Run ⟨1⟩ history e ∧ e.current = some handle ∧
      handle.worker.phase = .serve ∧ handle.worker.commands = [] ∧ handle.worker.events = [] ∧
      e.state = .failed ∧ e.state = handle.worker.session.state ∧
      (∃ seen rest, Worker.shown (lifeOf handle.worker.session.id history) = seen ++ rest ∧
        seen.map Prod.fst = Worker.received (lifeOf handle.worker.session.id history) ∧
        e.state = (seen.getLast?.map Prod.snd).getD .building) ∧
      (∀ command id, e.command command ≠ .error (.unavailable (.workerExited id))) ∧
      ∀ e', e.await ≠ some (none, e') := by
  let request : StartRequest := { StartRequest.default with width := 0 }
  have hstarted : Run ⟨1⟩ _ _ := Steps.nil.snoc (.start rfl (rfl : Engine.start _ request = _))
  have hderived : Run ⟨1⟩ _ _ := hstarted.snoc
    (.work rfl (.call (rfl : Worker.Phase.operation? .deriveTree = some .derive) rfl))
  have hsent : Run ⟨1⟩ _ _ := hderived.snoc (.work rfl (.send rfl rfl (by decide)))
  have hadvanced : Run ⟨1⟩ _ _ := hsent.snoc
    (.work rfl (.call (rfl : Worker.Phase.operation? .render = some .advance) rfl))
  have hreceived : Run ⟨1⟩ _ _ := hadvanced.snoc (.receive rfl rfl)
  obtain ⟨hwaiting, hseen, -, hopen⟩ := view_agrees hreceived rfl
  obtain ⟨hcommand, hawait⟩ := hopen nofun
  exact ⟨_, _, _, hreceived, rfl, rfl, rfl, rfl, rfl, (hwaiting rfl rfl rfl).1, hseen, hcommand,
    hawait⟩

end Engine

end GrammarArt
