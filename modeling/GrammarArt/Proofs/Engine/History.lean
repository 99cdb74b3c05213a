import GrammarArt.Proofs.Engine.Life

/-! # The history of an engine

In a run of an engine the caller and all workers that were ever started move one at a time, in
any order (`Step`), and the history of the run records what happened, and to the worker of which
session.  A start has two steps: first the caller lets go of the current session, then there is
a new one, or none if the system has no thread for its worker.  (The two queues of a session are
let go one after the other.  A worker can tell only when it finds one of them closed, and then
it ends without touching the other, so this is one step here.)

The invariant (`Records`) says that the history is right: every session that was started has a
worker, each with an identifier of its own, and what the history tells of it is its life.
-/
namespace GrammarArt.Engine

/-- What happens in a run. -/
inductive Happening where
  | start (id : Nat) (request : StartRequest)
  /-- A session could not be started; its identifier is used up. -/
  | startFailed
  /-- Something happens to the worker of a session. -/
  | worker (id : Nat) (incident : Worker.Incident)
  | refuse (command : Command) (failure : Failure)
  /-- The caller asks for an event, and there is none. -/
  | noEvent

/-- The steps of a run. -/
inductive Step (e : Engine) : Happening → Engine → Prop where
  | start {request : StartRequest} {id : Nat} {e' : Engine} (hcurrent : e.current = none)
    (h : e.start request = .ok (id, e')) : Step e (.start id request) e'
  | startFailed (hcurrent : e.current = none) :
    Step e .startFailed { e with nextId := e.nextId + 1 }
  | letGo {handle : Handle} (hcurrent : e.current = some handle) :
    Step e (.worker handle.worker.session.id .letGo) e.release
  | command {handle : Handle} {command : Command} {e' : Engine}
    (hcurrent : e.current = some handle) (h : e.command command = .ok e') :
    Step e (.worker handle.worker.session.id (.command command)) e'
  | refuse {command : Command} {failure : Failure} (h : e.command command = .error failure) :
    Step e (.refuse command failure) e
  | receive {handle : Handle} {event : Event} {e' : Engine} (hcurrent : e.current = some handle)
    (h : e.receive = (some event, e')) :
    Step e (.worker handle.worker.session.id (.receive event)) e'
  | noEvent {e' : Engine} (h : e.receive = (none, e')) : Step e .noEvent e'
  | work {handle : Handle} {deed : Worker.Deed} {worker : Worker}
    (hcurrent : e.current = some handle) (hdoes : handle.worker.Does deed worker) :
    Step e (.worker handle.worker.session.id (.deed deed)) (e.withCurrent worker handle.observed)
  | workReleased {i : Nat} {v w : Worker} {deed : Worker.Deed} (hi : e.released[i]? = some v)
    (hdoes : v.Does deed w) :
    Step e (.worker v.session.id (.deed deed)) { e with released := e.released.set i w }

/-- A run of an engine that was just made. -/
def Run (options : EngineOptions) : List Happening → Engine → Prop := Steps Step (new options)

/-- The session that is started. -/
def Happening.started? : Happening → Option Nat
  | .start id _ => some id
  | _ => none

/-- What happens to the worker of a session. -/
def Happening.incident? (id : Nat) : Happening → Option Worker.Incident
  | .worker id' incident => if id' = id then some incident else none
  | _ => none

/-- The sessions that were started, in order. -/
def started (history : List Happening) : List Nat := history.filterMap Happening.started?

/-- What happened to the worker of a session. -/
def lifeOf (id : Nat) (history : List Happening) : List Worker.Incident :=
  history.filterMap (Happening.incident? id)

/-- The state that the events received from a session tell. -/
def told (received : List Event) : SessionState :=
  match received.getLast? with
  | none => .building
  | some event => event.stateAfter

/-- All workers that were ever started, the last one first. -/
def workers (e : Engine) : List Worker := e.current.toList.map Handle.worker ++ e.released

variable {options : EngineOptions} {e e' : Engine} {history : List Happening}
  {happening : Happening} {id : Nat} {incident : Worker.Incident}

theorem mem_workers {handle : Handle} (h : e.current = some handle) :
    handle.worker ∈ e.workers := by
  rw [workers, h]
  exact List.mem_cons_self

/-! ### What a step is -/

theorem start_eq_ok {request : StartRequest} (hcurrent : e.current = none)
    (h : e.start request = .ok (id, e')) :
    id = e.nextId ∧ ∃ capacity, 0 < capacity ∧ e' = { e with
      nextId := e.nextId + 1
      current := some ⟨.new capacity (Session.new e.nextId request), .building⟩ } := by
  have hrelease : e.release = e := by rw [release, hcurrent]
  simp only [start, hrelease] at h
  split at h
  · cases h
  · cases h
    exact ⟨rfl, _, Nat.lt_of_lt_of_le Nat.one_pos (Nat.le_max_right _ _), rfl⟩

/-- A start lets go of the current session first. -/
theorem start_release (e : Engine) (request : StartRequest) :
    e.release.start request = e.start request := by
  have hrelease : e.release.release = e.release := by
    cases hcurrent : e.current with
    | none => simp only [release, hcurrent]
    | some handle => simp only [release, hcurrent]
  simp only [start, hrelease]

theorem command_eq_ok {handle : Handle} (hcurrent : e.current = some handle) {command : Command}
    (h : e.command command = .ok e') :
    ∃ w, handle.worker.push command = .ok w ∧ e' = e.withCurrent w handle.observed := by
  simp only [Engine.command, hcurrent] at h
  split at h
  · cases h
  · rename_i w hpush
    cases h
    exact ⟨w, hpush, rfl⟩

theorem receive_eq_some {handle : Handle} (hcurrent : e.current = some handle) {event : Event}
    (h : e.receive = (some event, e')) :
    ∃ events, handle.worker.events = event :: events ∧
      e' = e.withCurrent { handle.worker with events := events } event.stateAfter := by
  simp only [receive, hcurrent] at h
  split at h
  · cases h
  · rename_i event' events hevents
    cases h
    exact ⟨events, hevents, rfl⟩

theorem receive_eq_none (h : e.receive = (none, e')) : e' = e := by
  unfold receive at h
  split at h
  · cases h
    rfl
  · split at h
    · cases h
      rfl
    · cases h

/-- What happens to a worker happens to one of all workers, and leaves the others alone. -/
theorem Step.of_worker (h : Step e (.worker id incident) e')
    (hheld : ∀ handle, e.current = some handle → handle.worker.held = true) :
    ∃ k v w, e.workers[k]? = some v ∧ v.session.id = id ∧ v.Happens incident w ∧
      e'.workers = e.workers.set k w ∧ e'.nextId = e.nextId := by
  cases h with
  | letGo hcurrent =>
    refine ⟨0, _, _, ?_, rfl, .letGo (hheld _ hcurrent), ?_, ?_⟩
    · simp [workers, hcurrent]
    · simp [workers, release, hcurrent, Worker.letGo]
    · simp [release, hcurrent]
  | command hcurrent hcommand =>
    obtain ⟨w, hpush, rfl⟩ := command_eq_ok hcurrent hcommand
    refine ⟨0, _, w, ?_, rfl, .command (hheld _ hcurrent) hpush, ?_, rfl⟩
    · simp [workers, hcurrent]
    · simp [workers, withCurrent, hcurrent]
  | receive hcurrent hreceive =>
    obtain ⟨events, hevents, rfl⟩ := receive_eq_some hcurrent hreceive
    refine ⟨0, _, _, ?_, rfl, .receive (hheld _ hcurrent) hevents, ?_, rfl⟩
    · simp [workers, hcurrent]
    · simp [workers, withCurrent, hcurrent]
  | work hcurrent hdoes =>
    refine ⟨0, _, _, ?_, rfl, .deed hdoes, ?_, rfl⟩
    · simp [workers, hcurrent]
    · simp [workers, withCurrent, hcurrent]
  | @workReleased i v w deed hi hdoes =>
    refine ⟨(e.current.toList.map Handle.worker).length + i, v, w, ?_, rfl, .deed hdoes, ?_, rfl⟩
    · rw [workers, List.getElem?_append_right (Nat.le_add_right _ _), Nat.add_sub_cancel_left]
      exact hi
    · rw [workers, workers, List.set_append_right _ _ (Nat.le_add_right _ _),
        Nat.add_sub_cancel_left]

theorem started_append (history : List Happening) (happening : Happening) :
    started (history ++ [happening]) = started history ++ happening.started?.toList := by
  cases h : happening.started? with
  | none => simp [started, h]
  | some id => simp [started, h]

theorem lifeOf_append (id : Nat) (history : List Happening) (happening : Happening) :
    lifeOf id (history ++ [happening]) =
      lifeOf id history ++ (happening.incident? id).toList := by
  cases h : happening.incident? id with
  | none => simp [lifeOf, h]
  | some incident => simp [lifeOf, h]

theorem lifeOf_append_self (id : Nat) (history : List Happening) (incident : Worker.Incident) :
    lifeOf id (history ++ [.worker id incident]) = lifeOf id history ++ [incident] := by
  rw [lifeOf_append, Happening.incident?, if_pos rfl, Option.toList_some]

theorem lifeOf_append_of_ne {id id' : Nat} (h : id' ≠ id) (history : List Happening)
    (incident : Worker.Incident) :
    lifeOf id (history ++ [.worker id' incident]) = lifeOf id history := by
  rw [lifeOf_append, Happening.incident?, if_neg h, Option.toList_none, List.append_nil]

/-! ### Who is held -/

/-- The caller holds the current session, and no other. -/
structure Held (e : Engine) : Prop where
  current : ∀ handle, e.current = some handle → handle.worker.held = true
  released : ∀ w ∈ e.released, w.held = false

theorem held_new (options : EngineOptions) : (new options).Held where
  current := fun _ hnone => absurd hnone.symm (Option.some_ne_none _)
  released := List.forall_mem_nil _

theorem Held.withCurrent (h : e.Held) {w : Worker} (hw : w.held = true)
    (observed : SessionState) : (e.withCurrent w observed).Held where
  current := fun handle hcurrent => by
    cases hcurrent
    exact hw
  released := h.released

theorem Held.step (h : e.Held) (hstep : Step e happening e') : e'.Held := by
  cases hstep with
  | start hcurrent hstart =>
    obtain ⟨-, capacity, -, rfl⟩ := start_eq_ok hcurrent hstart
    refine ⟨fun handle hnew => ?_, h.released⟩
    cases hnew
    rfl
  | startFailed hcurrent => exact ⟨h.current, h.released⟩
  | letGo hcurrent =>
    simp only [release, hcurrent]
    refine ⟨fun _ hnone => absurd hnone.symm (Option.some_ne_none _), fun w hw => ?_⟩
    rcases List.mem_cons.mp hw with rfl | hmem
    · rfl
    · exact h.released w hmem
  | command hcurrent hcommand =>
    obtain ⟨w, hpush, rfl⟩ := command_eq_ok hcurrent hcommand
    cases Worker.eq_queue_of_push hpush
    refine h.withCurrent ?_ _
    exact h.current _ hcurrent
  | refuse => exact h
  | receive hcurrent hreceive =>
    obtain ⟨events, -, rfl⟩ := receive_eq_some hcurrent hreceive
    refine h.withCurrent ?_ _
    exact h.current _ hcurrent
  | noEvent hnone => exact receive_eq_none hnone ▸ h
  | work hcurrent hdoes =>
    exact h.withCurrent (hdoes.held_eq.trans (h.current _ hcurrent)) _
  | workReleased hi hdoes =>
    refine ⟨h.current, fun u hu => ?_⟩
    rcases List.mem_or_eq_of_mem_set hu with hmem | rfl
    · exact h.released u hmem
    · exact hdoes.held_eq.trans (h.released _ (List.mem_of_getElem? hi))

/-! ### What the history records -/

/-- The worker serves a session that was started, and its life is what the history tells of
this session. -/
def Recorded (history : List Happening) (w : Worker) : Prop :=
  ∃ capacity request, .start w.session.id request ∈ history ∧
    Steps Worker.Happens (.new capacity (Session.new w.session.id request))
      (lifeOf w.session.id history) w

/-- The history is that of the engine. -/
structure Records (history : List Happening) (e : Engine) : Prop where
  held : e.Held
  ids_eq : e.workers.map (·.session.id) = (started history).reverse
  ascending : (started history).Pairwise (· < ·)
  fresh : ∀ id ∈ started history, id < e.nextId
  recorded : ∀ w ∈ e.workers, Recorded history w
  silent : ∀ id ∉ started history, lifeOf id history = []

theorem Recorded.keeps {w : Worker} (h : Recorded history w) :
    ∃ request, .start w.session.id request ∈ history ∧
      w.Keeps w.session.id request (lifeOf w.session.id history) := by
  obtain ⟨capacity, request, hstarted, hlife⟩ := h
  exact ⟨request, hstarted, Worker.keeps_of_steps hlife⟩

/-- What happens elsewhere does not change the life of a worker. -/
theorem Recorded.append {w : Worker} (h : Recorded history w)
    (hother : happening.incident? w.session.id = none) :
    Recorded (history ++ [happening]) w := by
  obtain ⟨capacity, request, hstarted, hlife⟩ := h
  refine ⟨capacity, request, List.mem_append_left _ hstarted, ?_⟩
  rwa [lifeOf_append, hother, Option.toList_none, List.append_nil]

theorem Recorded.happens {v w : Worker} (h : Recorded history v)
    (hhappens : v.Happens incident w) :
    w.session.id = v.session.id ∧
      Recorded (history ++ [.worker v.session.id incident]) w := by
  obtain ⟨capacity, request, hstarted, hlife⟩ := h
  have hafter := hlife.snoc hhappens
  have hid : w.session.id = v.session.id := (Worker.keeps_of_steps hafter).ran.id_eq
  refine ⟨hid, capacity, request, ?_, ?_⟩
  · rw [hid]
    exact List.mem_append_left _ hstarted
  · rw [hid, lifeOf_append_self]
    exact hafter

theorem records_new (options : EngineOptions) : Records [] (new options) where
  held := held_new options
  ids_eq := rfl
  ascending := .nil
  fresh := List.forall_mem_nil _
  recorded := List.forall_mem_nil _
  silent := fun _ _ => rfl

/-- What no worker notices leaves everything as it was recorded. -/
theorem Records.append (h : Records history e) (hstarted : happening.started? = none)
    (hincident : ∀ id, happening.incident? id = none) (hheld : e'.Held)
    (hworkers : e'.workers = e.workers) (hnext : e.nextId ≤ e'.nextId) :
    Records (history ++ [happening]) e' := by
  have hsame : started (history ++ [happening]) = started history := by
    rw [started_append, hstarted, Option.toList_none, List.append_nil]
  refine ⟨hheld, ?_, ?_, fun id hid => ?_, fun w hw => ?_, fun id hid => ?_⟩
  · rw [hworkers, hsame]
    exact h.ids_eq
  · rw [hsame]
    exact h.ascending
  · rw [hsame] at hid
    exact (h.fresh id hid).trans_le hnext
  · rw [hworkers] at hw
    exact (h.recorded w hw).append (hincident _)
  · rw [hsame] at hid
    rw [lifeOf_append, hincident, Option.toList_none, List.append_nil]
    exact h.silent id hid

theorem Records.start (h : Records history e) {request : StartRequest}
    (hcurrent : e.current = none) (hstart : e.start request = .ok (id, e'))
    (hheld : e'.Held) : Records (history ++ [.start id request]) e' := by
  obtain ⟨rfl, capacity, -, rfl⟩ := start_eq_ok hcurrent hstart
  have hnew : e.nextId ∉ started history := fun hmem => (h.fresh _ hmem).false
  have hstarted : started (history ++ [.start e.nextId request]) =
      started history ++ [e.nextId] := started_append _ _
  refine ⟨hheld, ?_, ?_, fun id hid => ?_, fun w hw => ?_, fun id hid => ?_⟩
  · have hids := h.ids_eq
    rw [workers, hcurrent] at hids
    rw [hstarted, List.reverse_append, ← hids]
    rfl
  · rw [hstarted, List.pairwise_append]
    exact ⟨h.ascending, List.pairwise_singleton _ _, fun id hid next hnext =>
      List.mem_singleton.mp hnext ▸ h.fresh id hid⟩
  · rw [hstarted, List.mem_append, List.mem_singleton] at hid
    rcases hid with hid | rfl
    · exact (h.fresh id hid).trans (Nat.lt_succ_self _)
    · exact Nat.lt_succ_self _
  · rw [workers, List.mem_append] at hw
    rcases hw with hw | hw
    · -- The worker of the session has no life yet.
      obtain rfl := List.mem_singleton.mp hw
      refine ⟨capacity, request, List.mem_append_right _ (List.mem_singleton.mpr rfl), ?_⟩
      have hlife : lifeOf e.nextId (history ++ [.start e.nextId request]) = [] := by
        rw [lifeOf_append, h.silent _ hnew]
        rfl
      show Steps _ _ (lifeOf e.nextId _) _
      rw [hlife]
      exact .nil
    · exact (h.recorded w (List.mem_append_right _ hw)).append rfl
  · rw [hstarted, List.mem_append, not_or] at hid
    rw [lifeOf_append, h.silent id hid.1]
    rfl

theorem Records.nodup (h : Records history e) :
    (e.workers.map (·.session.id)).Nodup := by
  rw [h.ids_eq, List.nodup_reverse]
  exact h.ascending.imp Nat.ne_of_lt

theorem Records.eq_of_id_eq (h : Records history e) {j k : Nat} {v w : Worker}
    (hj : e.workers[j]? = some v) (hk : e.workers[k]? = some w)
    (hid : v.session.id = w.session.id) : j = k := by
  refine (List.getElem?_inj ?_ h.nodup).mp ?_
  · rw [List.length_map]
    exact (List.getElem?_eq_some_iff.mp hj).1
  · rw [List.getElem?_map, List.getElem?_map, hj, hk, Option.map_some, Option.map_some, hid]

/-- What happens to a worker is recorded with its session, and with no other. -/
theorem Records.worker (h : Records history e) (hstep : Step e (.worker id incident) e') :
    Records (history ++ [.worker id incident]) e' := by
  obtain ⟨k, v, w, hk, rfl, hhappens, hworkers, hnext⟩ := hstep.of_worker h.held.current
  -- The worker keeps its identifier, and no other worker has it (`eq_of_id_eq`).
  obtain ⟨hid, hrecorded⟩ := (h.recorded v (List.mem_of_getElem? hk)).happens hhappens
  have hsame : started (history ++ [.worker v.session.id incident]) = started history := by
    rw [started_append]
    exact List.append_nil _
  have hids : e'.workers.map (·.session.id) = e.workers.map (·.session.id) := by
    have hk' : (e.workers.map (·.session.id))[k]? = some w.session.id := by
      rw [List.getElem?_map, hk, Option.map_some, hid]
    obtain ⟨hlt, hget⟩ := List.getElem?_eq_some_iff.mp hk'
    rw [hworkers, List.map_set, ← hget, List.set_getElem_self]
  refine ⟨h.held.step hstep, ?_, ?_, ?_, fun u hu => ?_, fun id hnot => ?_⟩
  · rw [hids, hsame]
    exact h.ids_eq
  · rw [hsame]
    exact h.ascending
  · rw [hsame, hnext]
    exact h.fresh
  · rw [hworkers] at hu
    obtain ⟨j, hj⟩ := List.mem_iff_getElem?.mp hu
    rw [List.getElem?_set] at hj
    split at hj
    · split at hj
      · cases hj
        exact hrecorded
      · cases hj
    · rename_i hne
      refine (h.recorded u (List.mem_of_getElem? hj)).append (if_neg fun heq => hne ?_)
      exact h.eq_of_id_eq hk hj heq
  · rw [hsame] at hnot
    have hmem : v.session.id ∈ started history := by
      rw [← List.mem_reverse, ← h.ids_eq]
      exact List.mem_map_of_mem (List.mem_of_getElem? hk)
    rw [lifeOf_append_of_ne (ne_of_mem_of_not_mem hmem hnot)]
    exact h.silent id hnot

theorem Records.step (h : Records history e) (hstep : Step e happening e') :
    Records (history ++ [happening]) e' := by
  have hheld := h.held.step hstep
  cases happening with
  | worker id incident => exact h.worker hstep
  | start id request =>
    cases hstep with
    | start hcurrent hstart => exact h.start hcurrent hstart hheld
  | startFailed =>
    cases hstep with
    | startFailed hcurrent => exact h.append rfl (fun _ => rfl) hheld rfl (Nat.le_succ _)
  | refuse command failure =>
    cases hstep with
    | refuse hrefused => exact h.append rfl (fun _ => rfl) hheld rfl le_rfl
  | noEvent =>
    cases hstep with
    | noEvent hnone =>
      cases receive_eq_none hnone
      exact h.append rfl (fun _ => rfl) hheld rfl le_rfl

/-- **The history of a run is right.** -/
theorem Run.records (h : Run options history e) : Records history e := by
  induction h with
  | nil => exact records_new options
  | snoc before hstep ih => exact ih.step hstep

/-! ### Schedules -/

theorem Run.exists_release (h : Run options history e) :
    ∃ history, Run options history e.release ∧ e.release.current = none := by
  cases hcurrent : e.current with
  | none =>
    refine ⟨history, ?_, ?_⟩
    · rwa [release, hcurrent]
    · rw [release, hcurrent, hcurrent]
  | some handle =>
    refine ⟨_, h.snoc (.letGo hcurrent), ?_⟩
    rw [release, hcurrent]

theorem Run.exists_receive (h : Run options history e) :
    ∃ history, Run options history e.receive.2 := by
  cases hreceive : e.receive with
  | mk event e' =>
    cases event with
    | none => exact ⟨_, h.snoc (.noEvent hreceive)⟩
    | some event =>
      cases hcurrent : e.current with
      | none =>
        rw [receive, hcurrent] at hreceive
        cases hreceive
      | some handle => exact ⟨_, h.snoc (.receive hcurrent hreceive)⟩

theorem Run.exists_command (h : Run options history e) {command : Command}
    (hcommand : e.command command = .ok e') : ∃ history, Run options history e' := by
  cases hcurrent : e.current with
  | none =>
    rw [Engine.command, hcurrent] at hcommand
    cases hcommand
  | some handle => exact ⟨_, h.snoc (.command hcurrent hcommand)⟩

theorem Run.exists_moveCurrent (h : Run options history e) (hmove : e.moveCurrent? = some e') :
    ∃ history, Run options history e' := by
  unfold moveCurrent? at hmove
  split at hmove
  · cases hmove
  · rename_i handle hcurrent
    obtain ⟨w, hstep, rfl⟩ := Option.map_eq_some_iff.mp hmove
    obtain ⟨deed, hdoes⟩ := Worker.step?_eq_some_iff.mp hstep
    exact ⟨_, h.snoc (.work hcurrent hdoes)⟩

theorem Run.exists_moveReleased (h : Run options history e) {i : Nat}
    (hmove : e.moveReleased? i = some e') : ∃ history, Run options history e' := by
  unfold moveReleased? at hmove
  split at hmove
  · cases hmove
  · rename_i v hi
    obtain ⟨w, hstep, rfl⟩ := Option.map_eq_some_iff.mp hmove
    obtain ⟨deed, hdoes⟩ := Worker.step?_eq_some_iff.mp hstep
    exact ⟨_, h.snoc (.workReleased hi hdoes)⟩

/-- **Every schedule is a run.** -/
theorem exists_run_of_reachable {t : Transcript} (h : Transcript.Reachable options t) :
    ∃ history, Run options history t.engine := by
  induction h with
  | new => exact ⟨[], .nil⟩
  | @act t t' move _ hact ih =>
    obtain ⟨history, hrun⟩ := ih
    cases move with
    | start request =>
      simp only [Transcript.act] at hact
      split at hact
      · cases hact
      · rename_i id e' hstart
        cases hact
        obtain ⟨history', hreleased, hnone⟩ := hrun.exists_release
        exact ⟨_, hreleased.snoc (.start hnone ((start_release _ _).trans hstart))⟩
    | command command =>
      simp only [Transcript.act] at hact
      split at hact
      · cases hact
        exact ⟨history, hrun⟩
      · rename_i e' hcommand
        cases hact
        exact hrun.exists_command hcommand
    | receive =>
      cases hact
      exact hrun.exists_receive
    | work =>
      cases hact
      cases hmove : t.engine.moveCurrent? with
      | none => exact ⟨history, hrun⟩
      | some e' => exact hrun.exists_moveCurrent hmove
    | workReleased i =>
      cases hact
      cases hmove : t.engine.moveReleased? i with
      | none => exact ⟨history, hrun⟩
      | some e' => exact hrun.exists_moveReleased hmove

end GrammarArt.Engine
