import GrammarArt.Engine.Watch
import GrammarArt.Proofs.Engine.Pace
import GrammarArt.Proofs.Engine.View
import GrammarArt.Proofs.Expression.Canonical

/-! # A caller that watches an image grow

A caller that wants the finished image waits for one event after the other, and asks for the next
step after each step that is not the last one (`Watcher`).  It and the worker move one at a time, in
any order.

Each waits for the other again and again, but they never wait for each other at the same time
(`OnTrack`): the first step comes without being asked for, and whenever the caller waits after
that, it has asked once for each step that it has received.  When it asks, the worker has nothing
else to do, so there is room for the command.  And it cannot go on for ever, since every move
uses up some of what is left to do (`Watcher.budget`).  So the caller ends up with the image,
unless there is no room for it.
-/
namespace GrammarArt.Engine

/-! ### The events of a caller that watches -/

section

variable {e e' e'' : Engine} {session current total n : Nat} {canonical shader : String}
  {image : Frame}

theorem watch_succ (e : Engine) (n : Nat) :
    e.watch (n + 1) =
      match e.settle.receive with
      | (none, _) => []
      | (some event, e) =>
        match event with
        | .expression _ _ _ => event :: e.watch n
        | .failed _ _ => [event]
        | .progress _ current total _ =>
          if current = total then [event]
          else match e.command .next with
            | .error _ => [event]
            | .ok e => event :: e.watch n := rfl

theorem watch_of_expression
    (h : e.settle.receive = (some (.expression session canonical shader), e')) :
    e.watch (n + 1) = .expression session canonical shader :: e'.watch n := by
  rw [watch_succ, h]

theorem watch_of_last (h : e.settle.receive = (some (.progress session current total image), e'))
    (hlast : current = total) :
    e.watch (n + 1) = [.progress session current total image] := by
  rw [watch_succ, h]
  exact if_pos hlast

theorem watch_of_step (h : e.settle.receive = (some (.progress session current total image), e'))
    (hmore : current ≠ total) (hcommand : e'.command .next = .ok e'') :
    e.watch (n + 1) = .progress session current total image :: e''.watch n := by
  rw [watch_succ, h]
  simp only [if_neg hmore, hcommand]

end

/-! ### Caller and worker -/

/-- What a caller does next that watches an image grow. -/
inductive Stage where
  /-- It waits for an event. -/
  | receiving
  /-- It asks for the next step. -/
  | asking
  /-- Nothing: it has the image. -/
  | finished (image : Frame)
  /-- Nothing: the session has failed. -/
  | failed (error : SessionError)
  /-- Nothing: its command was refused. -/
  | refused (failure : Failure)
  /-- Nothing: the worker has ended. -/
  | abandoned

/-- What it does after an event. -/
def Stage.after : Event → Stage
  | .expression _ _ _ => .receiving
  | .progress _ current total image => if current = total then .finished image else .asking
  | .failed _ error => .failed error

theorem Stage.after_stepEvent (request : StartRequest) (tree : Tree) (id current : Nat) :
    Stage.after (request.stepEvent tree id current) =
      if current = request.steps then .finished (request.frame tree current) else .asking := rfl

/-- How many moves a caller can make, and prompt, without an event. -/
def Stage.rank : Stage → Nat
  | .receiving => 1
  | .asking => 5
  | _ => 0

theorem Stage.rank_le (stage : Stage) : stage.rank ≤ 5 := by
  cases stage with
  | _ => simp only [rank]; omega

/-- A caller that watches an image grow, and the events that it has received. -/
structure Watcher where
  engine : Engine
  seen : List Event
  stage : Stage

namespace Watcher

/-- The caller or the worker moves. -/
inductive Act where
  | work
  | receive
  | ask

/-- Caller and worker after a move; none if it cannot be made. -/
def act? (v : Watcher) : Act → Option Watcher
  | .work => v.engine.moveCurrent?.map fun e => { v with engine := e }
  | .receive =>
    match v.stage with
    | .receiving =>
      match v.engine.await with
      | none => none
      | some (none, e) => some ⟨e, v.seen, .abandoned⟩
      | some (some event, e) => some ⟨e, v.seen ++ [event], .after event⟩
    | _ => none
  | .ask =>
    match v.stage with
    | .asking =>
      match v.engine.command .next with
      | .error failure => some ⟨v.engine, v.seen, .refused failure⟩
      | .ok e => some ⟨e, v.seen, .receiving⟩
    | _ => none

/-- The caller of a session that was just started. -/
def new (e : Engine) : Watcher := ⟨e, [], .receiving⟩

/-- Some moves of caller and worker. -/
def Run (first : Watcher) : List Act → Watcher → Prop :=
  Steps (fun v act v' => v.act? act = some v') first

/-- How often the caller has asked for a step. -/
def asked (v : Watcher) : Nat :=
  match v.stage with
  | .asking | .finished _ => v.seen.length - 2
  | _ => v.seen.length - 1

variable {request : StartRequest} {tree : Tree} {id : Nat} {v v' : Watcher} {w : Worker}
  {observed : SessionState}

/-- What the caller is about to do fits what it has received. -/
def Fits (request : StartRequest) (tree : Tree) (w : Worker) (v : Watcher) : Prop :=
  match v.stage with
  | .receiving => v.seen.length ≤ request.steps
  | .asking => 2 ≤ v.seen.length ∧ v.seen.length ≤ request.steps
  | .finished image =>
    v.seen.length = request.steps + 1 ∧ image = request.frame tree request.steps
  | .failed _ | .refused _ => False
  | .abandoned => v.seen.length ≤ request.steps ∧ w.phase = .broken

/-- The worker is in pace with the caller. -/
structure Serves (request : StartRequest) (tree : Tree) (id : Nat) (v : Watcher) (w : Worker) :
    Prop where
  paced : w.Paced request tree id v.seen v.asked
  fits : v.Fits request tree w

/-- The current session is the one that was started, and its worker is in pace. -/
def OnTrack (request : StartRequest) (tree : Tree) (id : Nat) (v : Watcher) : Prop :=
  ∃ w observed, v.engine.current = some ⟨w, observed⟩ ∧ v.Serves request tree id w

/-- What is left to do: five moves for each event, as many as the caller can make without one, and
those that the worker can make. -/
def budget (request : StartRequest) (v : Watcher) (w : Worker) : Nat :=
  5 * (request.steps + 1 - v.seen.length) + v.stage.rank + w.budget

theorem Serves.asked_lt (h : v.Serves request tree id w) : v.asked < request.steps := by
  have hfits := h.fits
  have hpos := request.steps_pos
  unfold Fits at hfits
  unfold asked
  cases hstage : v.stage with
  | receiving | asking | finished image | abandoned =>
    simp only [hstage] at hfits ⊢
    omega
  | failed error | refused failure => simp only [hstage] at hfits

/-- The worker makes a move. -/
theorem Serves.work (h : v.Serves request tree id w) (hrenders : request.Renders tree)
    {w' : Worker} (hstep : w.step? = some w') (e : Engine) :
    Serves request tree id { v with engine := e } w' := by
  obtain ⟨deed, hdoes⟩ := Worker.step?_eq_some_iff.mp hstep
  refine ⟨h.paced.does hrenders h.asked_lt hdoes, ?_⟩
  have hfits := h.fits
  unfold Fits at hfits ⊢
  cases hstage : v.stage with
  | abandoned =>
    simp only [hstage] at hfits
    rw [Worker.step?, hfits.2] at hstep
    cases hstep
  | receiving | asking | finished image =>
    simp only [hstage] at hfits ⊢
    exact hfits
  | failed error | refused failure => simp only [hstage] at hfits

/-- The caller receives an event. -/
theorem Serves.receive (h : v.Serves request tree id w) (hstage : v.stage = .receiving)
    {event : Event} {events : List Event} (hevents : w.events = event :: events) (e : Engine) :
    Serves request tree id ⟨e, v.seen ++ [event], .after event⟩ { w with events := events } := by
  obtain ⟨hpaced, hnext⟩ := h.paced.receive hevents
  have hfits := h.fits
  have hasked : v.asked = v.seen.length - 1 := by rw [asked, hstage]
  rw [Fits, hstage] at hfits
  rw [hasked] at hpaced
  dsimp only at hfits
  have hlength : (v.seen ++ [event]).length = v.seen.length + 1 := List.length_append
  -- The first event is the tree, which the caller does not answer; all others are steps.
  cases hcount : v.seen.length with
  | zero =>
    rw [hcount] at hnext hpaced
    cases hnext
    refine ⟨?_, ?_⟩
    · simp only [asked, Stage.after, hlength, hcount]
      exact hpaced
    · simp only [Fits, Stage.after, hlength, hcount]
      exact request.steps_pos
  | succ k =>
    rw [hcount] at hnext hpaced hfits
    rw [StartRequest.story_succ hfits] at hnext
    cases hnext
    by_cases hlast : k + 1 = request.steps
    · rw [Stage.after_stepEvent, if_pos hlast]
      refine ⟨?_, ?_⟩
      · simp only [asked, hlength, hcount]
        exact hpaced
      · simp only [Fits, hlength, hcount]
        exact ⟨congrArg (· + 1) hlast, congrArg (request.frame tree) hlast⟩
    · rw [Stage.after_stepEvent, if_neg hlast]
      refine ⟨?_, ?_⟩
      · simp only [asked, hlength, hcount]
        exact hpaced
      · simp only [Fits, hlength, hcount]
        omega

/-- The caller learns that the worker has ended. -/
theorem Serves.abandon (h : v.Serves request tree id w) (hstage : v.stage = .receiving)
    (hended : w.ended = true) (e : Engine) :
    Serves request tree id ⟨e, v.seen, .abandoned⟩ w := by
  have hfits := h.fits
  have hpaced := h.paced
  rw [Fits, hstage] at hfits
  rw [show v.asked = v.seen.length - 1 by rw [asked, hstage]] at hpaced
  refine ⟨hpaced, hfits, ?_⟩
  by_contra hbroken
  rw [Worker.ended_eq_false_iff.mpr ⟨hpaced.not_exited, hbroken⟩] at hended
  cases hended

/-- The caller asks for the next step. -/
theorem Serves.ask (h : v.Serves request tree id w) (hstage : v.stage = .asking)
    (hcurrent : v.engine.current = some ⟨w, observed⟩) (e : Engine) :
    v.engine.command .next = .ok (v.engine.withCurrent (w.queue .next) observed) ∧
      Serves request tree id ⟨e, v.seen, .receiving⟩ (w.queue .next) := by
  have hfits := h.fits
  have hpaced := h.paced
  rw [Fits, hstage] at hfits
  rw [show v.asked = v.seen.length - 2 by rw [asked, hstage]] at hpaced
  -- All that was asked for was received, so the queue of commands is empty.
  obtain ⟨hphase, hcommands⟩ := hpaced.of_answered (by omega)
  have hpush : w.push .next = .ok (w.queue .next) := by
    have hended : w.ended = false := by rw [Worker.ended, hphase]
    have hroom : w.commands.length < w.capacity := hcommands ▸ hpaced.capacity_pos
    rw [Worker.push_of_not_ended hended, if_pos hroom]
  refine ⟨?_, ?_, hfits.2⟩
  · rw [Engine.command, hcurrent]
    simp only [hpush]
    rfl
  · have hnext := hpaced.queue hphase
    rwa [show v.seen.length - 2 + 1 = v.seen.length - 1 by omega] at hnext

/-! ### Runs -/

/-- What is left to do of the current session. -/
def left (request : StartRequest) (v : Watcher) : Nat :=
  match v.engine.current with
  | none => 0
  | some handle => v.budget request handle.worker

theorem left_eq (hcurrent : v.engine.current = some ⟨w, observed⟩) :
    v.left request = v.budget request w := by
  rw [left, hcurrent]

/-- **Caller and worker stay on track**, and there is less left to do after every move. -/
theorem OnTrack.act (h : v.OnTrack request tree id) (hrenders : request.Renders tree) {act : Act}
    (hact : v.act? act = some v') :
    v'.OnTrack request tree id ∧ v'.left request < v.left request := by
  obtain ⟨w, observed, hcurrent, hserves⟩ := h
  rw [left_eq hcurrent]
  cases act with
  | work =>
    obtain ⟨e', hmove, rfl⟩ := Option.map_eq_some_iff.mp hact
    rw [moveCurrent?, hcurrent] at hmove
    obtain ⟨w', hstep, rfl⟩ := Option.map_eq_some_iff.mp hmove
    refine ⟨⟨w', observed, rfl, hserves.work hrenders hstep _⟩, ?_⟩
    exact Nat.add_lt_add_left (Worker.budget_lt_of_step? hstep) _
  | receive =>
    simp only [act?] at hact
    split at hact
    · rename_i hstage
      split at hact
      · cases hact
      · rename_i e' hnothing
        cases hact
        obtain ⟨rfl, hended⟩ := await_eq_nothing hcurrent hnothing
        refine ⟨⟨w, observed, hcurrent, hserves.abandon hstage hended _⟩, ?_⟩
        rw [left_eq (v := ⟨v.engine, v.seen, .abandoned⟩) hcurrent, budget, budget, hstage]
        exact Nat.add_lt_add_right (Nat.lt_succ_self _) _
      · rename_i event e' hevent
        cases hact
        obtain ⟨events, hevents, rfl⟩ := receive_eq_some hcurrent (await_eq_event hevent)
        have hserves' := hserves.receive hstage hevents
          (v.engine.withCurrent { w with events := events } event.stateAfter)
        refine ⟨⟨_, _, rfl, hserves'⟩, ?_⟩
        have hrank := Stage.rank_le (.after event)
        have hreceiving : Stage.receiving.rank = 1 := rfl
        have hlength : v.seen.length ≤ request.steps := by
          have hfits := hserves.fits
          rwa [Fits, hstage] at hfits
        rw [left_eq rfl]
        -- The event was worth five moves, as many as the caller makes or prompts after it.
        simp only [budget, hstage, List.length_append, List.length_singleton, Worker.budget]
        omega
    · cases hact
  | ask =>
    simp only [act?] at hact
    split at hact
    · rename_i hstage
      obtain ⟨hcommand, hserves'⟩ := hserves.ask hstage hcurrent
        (v.engine.withCurrent (w.queue .next) observed)
      rw [hcommand] at hact
      cases hact
      refine ⟨⟨_, _, rfl, hserves'⟩, ?_⟩
      rw [left_eq rfl]
      simp only [budget, hstage, Stage.rank, Worker.budget, Worker.queue, List.length_append,
        List.length_singleton]
      omega
    · cases hact

theorem onTrack_new {options : EngineOptions} {e : Engine}
    (hstart : (Engine.new options).start request = .ok (id, e)) (tree : Tree) :
    (new e).OnTrack request tree id ∧ (new e).left request = 5 * request.steps + 11 := by
  obtain ⟨rfl, capacity, hcapacity, rfl⟩ := start_eq_ok rfl hstart
  refine ⟨⟨_, _, rfl, Worker.paced_new hcapacity request tree _, Nat.zero_le _⟩, ?_⟩
  show 5 * (request.steps + 1) + 1 + 5 = 5 * request.steps + 11
  omega

theorem OnTrack.run {first : Watcher} (hfirst : first.OnTrack request tree id)
    (hrenders : request.Renders tree) {acts : List Act} (h : Run first acts v) :
    v.OnTrack request tree id ∧ acts.length + v.left request ≤ first.left request := by
  induction h with
  | nil => exact ⟨hfirst, (Nat.zero_add _).le⟩
  | snoc before hact ih =>
    obtain ⟨htrack, hlength⟩ := ih
    obtain ⟨htrack', hless⟩ := htrack.act hrenders hact
    refine ⟨htrack', ?_⟩
    rw [List.length_append, List.length_singleton]
    omega

/-! ### What the caller comes to -/

theorem OnTrack.isPrefix (h : v.OnTrack request tree id) :
    v.seen <+: request.story tree id := by
  obtain ⟨w, observed, -, hserves⟩ := h
  refine List.IsPrefix.trans ?_ hserves.paced.isPrefix
  rw [Worker.toldSoFar, List.append_assoc]
  exact List.prefix_append _ _

theorem OnTrack.not_refused (h : v.OnTrack request tree id) (failure : Failure) :
    v.stage ≠ .refused failure := by
  obtain ⟨w, observed, -, hserves⟩ := h
  intro hstage
  have hfits := hserves.fits
  rwa [Fits, hstage] at hfits

/-- Caller and worker do not wait for each other. -/
theorem OnTrack.not_deadlocked (h : v.OnTrack request tree id) (hstage : v.stage = .receiving)
    (hcurrent : v.engine.current = some ⟨w, observed⟩) (hphase : w.phase = .serve)
    (hcommands : w.commands = []) : w.events ≠ [] := by
  obtain ⟨w', observed', hcurrent', hserves⟩ := h
  cases hcurrent.symm.trans hcurrent'
  refine hserves.paced.not_waiting ?_ hphase hcommands
  rw [asked, hstage]
  dsimp only
  omega

/-- The image is that of the last step. -/
theorem OnTrack.of_finished (h : v.OnTrack request tree id) {image : Frame}
    (hstage : v.stage = .finished image) :
    v.seen = request.story tree id ∧ image = request.frame tree request.steps := by
  have hseen := h.isPrefix
  obtain ⟨w, observed, -, hserves⟩ := h
  have hfits := hserves.fits
  rw [Fits, hstage] at hfits
  refine ⟨hseen.eq_of_length ?_, hfits.2⟩
  rw [hfits.1, StartRequest.length_story]

/-- A caller that waits gets an event once the worker has done all it can, if there is room for the
image. -/
theorem Serves.events_ne_nil (h : v.Serves request tree id w) (hroom : ¬ request.ExceedsMemory)
    (hstage : v.stage = .receiving) (hstuck : w.step? = none) : w.events ≠ [] := by
  have hpaced := h.paced
  rw [show v.asked = v.seen.length - 1 by rw [asked, hstage]] at hpaced
  rcases hpaced.of_step?_eq_none hstuck with hsome | ⟨hphase, hcommands⟩ | hbroken
  · exact hsome
  · exact hpaced.not_waiting (by omega) hphase hcommands
  · exact absurd (hpaced.exceedsMemory hbroken) hroom

/-- When no one can move any more, the caller has the image, or there is no room for it. -/
theorem OnTrack.of_stuck (h : v.OnTrack request tree id) (hstuck : ∀ act, v.act? act = none) :
    (∃ image, v.stage = .finished image) ∨ v.stage = .abandoned ∧ request.ExceedsMemory := by
  have htrack := h
  obtain ⟨w, observed, hcurrent, hserves⟩ := h
  cases hstage : v.stage with
  | receiving =>
    obtain ⟨hevents, hended⟩ := of_await_eq_none hcurrent (by
      have hreceive := hstuck .receive
      simp only [act?, hstage] at hreceive
      split at hreceive
      · assumption
      · cases hreceive
      · cases hreceive)
    have hstep : w.step? = none := by
      have hwork := hstuck .work
      simpa [act?, moveCurrent?, hcurrent] using hwork
    rcases hserves.paced.of_step?_eq_none hstep with hsome | ⟨hphase, hcommands⟩ | hbroken
    · exact absurd hevents hsome
    · exact absurd hevents (htrack.not_deadlocked hstage hcurrent hphase hcommands)
    · exact absurd hbroken (Worker.ended_eq_false_iff.mp hended).2
  | asking =>
    have hask := hstuck .ask
    simp only [act?, hstage, (hserves.ask hstage hcurrent v.engine).1] at hask
    cases hask
  | finished image => exact .inl ⟨image, rfl⟩
  | failed error | refused failure =>
    have hfits := hserves.fits
    rw [Fits, hstage] at hfits
    exact hfits.elim
  | abandoned =>
    have hfits := hserves.fits
    rw [Fits, hstage] at hfits
    exact .inr ⟨rfl, hserves.paced.exceedsMemory hfits.2⟩

/-- Some moves lead to where no one can move any more. -/
theorem OnTrack.exists_stuck {first : Watcher} (hfirst : first.OnTrack request tree id)
    (hrenders : request.Renders tree) :
    ∃ acts v, Run first acts v ∧ ∀ act, v.act? act = none := by
  by_contra hnever
  -- Otherwise there are runs of any length, and the budget bounds it.
  have hmove : ∀ n, ∃ acts v, Run first acts v ∧ acts.length = n := by
    intro n
    induction n with
    | zero => exact ⟨[], first, .nil, rfl⟩
    | succ n ih =>
      obtain ⟨acts, v, hrun, rfl⟩ := ih
      have hact : ∃ act, v.act? act ≠ none := by
        by_contra hstuck
        exact hnever ⟨acts, v, hrun, fun act => by_contra fun hact => hstuck ⟨act, hact⟩⟩
      obtain ⟨act, hact⟩ := hact
      obtain ⟨v', hv'⟩ := Option.ne_none_iff_exists'.mp hact
      exact ⟨_, v', hrun.snoc hv', List.length_append⟩
  obtain ⟨acts, v, hrun, hlength⟩ := hmove (first.left request + 1)
  have hbound := (hfirst.run hrenders hrun).2
  omega

/-- The worker makes all the moves that it can make. -/
theorem Serves.settle (h : v.Serves request tree id w) (hrenders : request.Renders tree) :
    v.Serves request tree id w.settle ∧ w.settle.step? = none := by
  induction w using Worker.settle.induct with
  | case1 w hstep =>
    have hsettle : w.settle = w := by
      rw [Worker.settle]
      split
      · rfl
      · rename_i hsome
        cases hstep.symm.trans hsome
    rw [hsettle]
    exact ⟨h, hstep⟩
  | case2 w w' hstep ih =>
    have hsettle : w.settle = w'.settle := by
      rw [Worker.settle]
      split
      · rename_i hnone
        cases hstep.symm.trans hnone
      · rename_i hsome
        cases hstep.symm.trans hsome
        rfl
    rw [hsettle]
    exact ih (h.work hrenders hstep v.engine)

/-- Once the worker has done all it can, the caller receives an event. -/
theorem OnTrack.exists_receive (h : v.OnTrack request tree id) (hrenders : request.Renders tree)
    (hroom : ¬ request.ExceedsMemory) (hstage : v.stage = .receiving) :
    ∃ event e', v.engine.settle.receive = (some event, e') ∧
      OnTrack request tree id ⟨e', v.seen ++ [event], .after event⟩ := by
  obtain ⟨w, observed, hcurrent, hserves⟩ := h
  obtain ⟨hsettled, hstuck⟩ := hserves.settle hrenders
  have hcurrent' : v.engine.settle.current = some ⟨w.settle, observed⟩ := by
    rw [Engine.settle, hcurrent]
    rfl
  cases hevents : w.settle.events with
  | nil => exact absurd hevents (hsettled.events_ne_nil hroom hstage hstuck)
  | cons event events =>
    refine ⟨event, v.engine.settle.withCurrent { w.settle with events := events }
      event.stateAfter, ?_, _, _, rfl, hsettled.receive hstage hevents _⟩
    simp only [Engine.receive, hcurrent', hevents]
    rfl

/-- **A caller that lets the worker do all it can before each of its own moves sees the whole
story**, if there is room for the image. -/
theorem OnTrack.watch_eq (h : v.OnTrack request tree id) (hrenders : request.Renders tree)
    (hroom : ¬ request.ExceedsMemory) (hstage : v.stage = .receiving) {n : Nat}
    (hn : request.steps + 1 ≤ v.seen.length + n) :
    v.seen ++ v.engine.watch n = request.story tree id := by
  induction n generalizing v with
  | zero =>
    obtain ⟨w, observed, -, hserves⟩ := h
    have hfits := hserves.fits
    rw [Fits, hstage] at hfits
    exact absurd hn (Nat.not_le.mpr (Nat.lt_succ_of_le hfits))
  | succ n ih =>
    obtain ⟨event, e', hreceive, htrack⟩ := h.exists_receive hrenders hroom hstage
    have hn' : request.steps + 1 ≤ (v.seen ++ [event]).length + n := by
      rw [List.length_append, List.length_singleton]
      omega
    cases event with
    | expression session canonical shader =>
      rw [watch_of_expression hreceive, List.append_cons]
      exact ih htrack rfl hn'
    | failed session error =>
      obtain ⟨w, observed, -, hserves⟩ := htrack
      exact hserves.fits.elim
    | progress session current total image =>
      by_cases hlast : current = total
      · rw [watch_of_last hreceive hlast]
        exact (htrack.of_finished (if_pos hlast)).1
      · obtain ⟨w, observed, hcurrent, hserves⟩ := htrack
        obtain ⟨hcommand, hserves'⟩ := hserves.ask (if_neg hlast) hcurrent
          (e'.withCurrent (w.queue .next) observed)
        rw [watch_of_step hreceive hlast hcommand, List.append_cons]
        exact ih ⟨_, _, rfl, hserves'⟩ rfl hn'

/-- **Watching an image grow is complete.**  For a request whose image can be rendered, queues of
any capacity, and in any order of the moves of caller and worker:

* the caller receives the first events of the story, in order;
* it is never refused a step;
* whenever it waits for an event and the worker waits for a command, there is an event for it;
* it finishes with the whole story, and with the image of the tree whose canonical text it has
  received, with all pixels of the frame;
* the moves come to an end, and when no one can move any more, the caller has finished, unless
  there is no room for the image. -/
theorem watching_completes (hrenders : request.Renders tree) {options : EngineOptions} {e : Engine}
    (hstart : (Engine.new options).start request = .ok (id, e)) {acts : List Act}
    (h : Run (new e) acts v) :
    v.seen <+: request.story tree id ∧
    (∀ failure, v.stage ≠ .refused failure) ∧
    (v.stage = .receiving → ∀ w observed, v.engine.current = some ⟨w, observed⟩ →
      w.phase = .serve → w.commands = [] → w.events ≠ []) ∧
    (∀ image, v.stage = .finished image → v.seen = request.story tree id ∧
      ∃ canonical shader t, v.seen.head? = some (.expression id canonical shader) ∧
        Expression.parse canonical = .ok t ∧
        image = Frame.ofPlaces request.width.toNat request.height.toNat fun col row =>
          (t.eval (Frame.point request.width.toNat request.height.toNat request.time col row)
            request.feed).pixel) ∧
    acts.length ≤ 5 * request.steps + 11 ∧
    ((∀ act, v.act? act = none) →
      (∃ image, v.stage = .finished image) ∨ v.stage = .abandoned ∧ request.ExceedsMemory) := by
  obtain ⟨hfirst, hleft⟩ := onTrack_new hstart tree
  obtain ⟨htrack, hlength⟩ := hfirst.run hrenders h
  refine ⟨htrack.isPrefix, htrack.not_refused, fun hstage w observed hcurrent =>
    htrack.not_deadlocked hstage hcurrent, fun image hstage => ?_, ?_, htrack.of_stuck⟩
  · obtain ⟨hseen, himage⟩ := htrack.of_finished hstage
    refine ⟨hseen, tree.render, tree.shader, tree, hseen ▸ rfl,
      StartRequest.parse_render_of_build hrenders.build_eq, ?_⟩
    rw [himage, request.frame_steps]
  · omega

/-- A caller can always finish if there is room for the image. -/
theorem exists_run_finished (hrenders : request.Renders tree) (hroom : ¬ request.ExceedsMemory)
    {options : EngineOptions} {e : Engine}
    (hstart : (Engine.new options).start request = .ok (id, e)) :
    ∃ acts v image, Run (new e) acts v ∧ v.stage = .finished image := by
  obtain ⟨hfirst, -⟩ := onTrack_new hstart tree
  obtain ⟨acts, v, hrun, hstuck⟩ := hfirst.exists_stuck hrenders
  rcases (hfirst.run hrenders hrun).1.of_stuck hstuck with ⟨image, hstage⟩ | ⟨-, hexceeds⟩
  · exact ⟨acts, v, image, hrun, hstage⟩
  · exact absurd hexceeds hroom

/-- A caller that watches an image of two steps. -/
theorem watching_completes_four_by_four :
    ∃ (request : StartRequest) (e : Engine) (acts : List Act) (v : Watcher) (image : Frame),
      request.Renders (.terminal 0 .x) ∧ (Engine.new ⟨1⟩).start request = .ok (1, e) ∧
      Run (new e) acts v ∧ v.stage = .finished image ∧ acts.length ≤ 21 ∧
      v.seen = request.story (.terminal 0 .x) 1 ∧
      ∃ canonical shader t, v.seen.head? = some (.expression 1 canonical shader) ∧
        Expression.parse canonical = .ok t ∧
        image = Frame.ofPlaces 4 4 fun col row =>
          (t.eval (Frame.point 4 4 request.time col row) request.feed).pixel := by
  let request : StartRequest := ⟨.expression "x", 4, 4, .interpreted, 0, .none⟩
  have hvalid : request.invalid? = none := by decide
  have hbuild : request.build = .ok (.terminal 0 .x) := by
    have hsource : Source.build (.expression "x") = .ok (.terminal 0 .x) := by cbv
    rw [StartRequest.build, hvalid]
    exact hsource
  have hrenders : request.Renders (.terminal 0 .x) := ⟨hbuild, rfl, by decide⟩
  have hroom : ¬ request.ExceedsMemory := by
    show ¬ Memory.limit ≤ 4 * 4 * Memo.slotBytes
    decide
  have hstart : (Engine.new ⟨1⟩).start request = .ok (1, _) := rfl
  obtain ⟨acts, v, image, hrun, hstage⟩ := exists_run_finished hrenders hroom hstart
  obtain ⟨-, -, -, hfinished, hlength, -⟩ := watching_completes hrenders hstart hrun
  obtain ⟨hseen, hshows⟩ := hfinished image hstage
  have hsteps : request.steps = 2 := by decide
  rw [hsteps] at hlength
  exact ⟨request, _, acts, v, image, hrenders, hstart, hrun, hstage, hlength, hseen, hshows⟩

end Watcher

/-- **What is told of a request** is the whole story, if there is room for the image. -/
theorem watchRequest_eq_story {request : StartRequest} {tree : Tree}
    (hrenders : request.Renders tree) (hroom : ¬ request.ExceedsMemory) :
    watchRequest request = request.story tree 1 := by
  obtain ⟨e, hstart⟩ : ∃ e, (new .default).start request = .ok (1, e) := ⟨_, rfl⟩
  obtain ⟨htrack, -⟩ := Watcher.onTrack_new hstart tree
  have hsteps : request.steps ≤ stepCount request.width.toNat request.height.toNat := by
    unfold StartRequest.steps
    split
    · exact le_rfl
    · exact Nat.le_max_left _ _
  have hwatch := htrack.watch_eq hrenders hroom rfl
    ((Nat.succ_le_succ hsteps).trans (Nat.zero_add _).ge)
  rw [watchRequest, hstart]
  exact hwatch

end GrammarArt.Engine
