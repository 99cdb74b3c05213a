import GrammarArt.Proofs.Engine.Watching
import GrammarArt.Proofs.Session.Telling

/-! # What a caller that watches is told of the tree

Whatever becomes of the image, a caller that watches it grow is told what became of the tree, and
told so first (`exists_receive_of_derive`): the worker derives the tree before all else, and
what it does after that is only ever sent behind it (`Worker.events_isPrefix_settle`).

It is told the tree only once.  If the image can be rendered and there is room for it, the caller
receives the whole story of the image; if there is none, it still receives the beginning of the
story (`OnTrack.watch_isPrefix`), and only the beginning of a story is a tree.
-/
namespace GrammarArt

namespace Worker

variable {w w' : Worker}

theorem settle_of_step?_eq_none (h : w.step? = none) : w.settle = w := by
  rw [settle]
  split
  · rfl
  · rename_i hsome
    cases h.symm.trans hsome

theorem settle_of_step? (h : w.step? = some w') : w.settle = w'.settle := by
  rw [settle]
  split
  · rename_i hnone
    cases h.symm.trans hnone
  · rename_i hsome
    cases h.symm.trans hsome
    rfl

/-- Events are sent behind those that were sent before. -/
theorem Does.events_isPrefix {deed : Deed} (h : w.Does deed w') : w.events <+: w'.events := by
  cases h with
  | send hheld hsending hroom => exact List.prefix_append _ _
  | _ => exact List.prefix_rfl

theorem events_isPrefix_settle (w : Worker) : w.events <+: w.settle.events := by
  induction w using settle.induct with
  | case1 w hstep => rw [settle_of_step?_eq_none hstep]
  | case2 w w' hstep ih =>
    obtain ⟨deed, hdoes⟩ := step?_eq_some_iff.mp hstep
    rw [settle_of_step? hstep]
    exact hdoes.events_isPrefix.trans ih

/-- What a new worker sends first is what comes of the derivation. -/
theorem exists_events_settle {capacity : Nat} (hcapacity : 0 < capacity) {s s' : Session}
    {event : Event} (h : s.derive = .ok (event, s')) :
    ∃ events, (new capacity s).settle.events = event :: events := by
  let derived : Worker := { new capacity s with session := s', phase := .sendTree event }
  let sent : Worker := { derived with phase := .render, events := [event] }
  have hderive : (new capacity s).step? = some derived := by
    simp only [new, step?, deriveTree, h]
    rfl
  have hsend : derived.step? = some sent := if_pos hcapacity
  rw [settle_of_step? hderive, settle_of_step? hsend]
  obtain ⟨events, hevents⟩ := sent.events_isPrefix_settle
  exact ⟨events, hevents.symm⟩

end Worker

namespace Engine

variable {request : StartRequest} {tree : Tree} {id : Nat}

/-- What comes of the derivation is received first. -/
theorem exists_receive_of_derive {e : Engine} {s : Session} {event : Event}
    (hstart : (Engine.new .default).start request = .ok (1, e))
    (h : (Session.new 1 request).derive = .ok (event, s)) :
    ∃ e', e.settle.receive = (some event, e') := by
  obtain ⟨-, capacity, hcapacity, rfl⟩ := start_eq_ok rfl hstart
  obtain ⟨events, hevents⟩ := Worker.exists_events_settle hcapacity h
  simp only [Engine.receive, settle, Option.map_some]
  have hfirst :
      (Worker.new capacity (Session.new (Engine.new .default).nextId request)).settle.events =
        event :: events := hevents
  rw [hfirst]
  exact ⟨_, rfl⟩

namespace Watcher

variable {v : Watcher}

/-- What is received once the worker has done all it can is the next event of the story. -/
theorem OnTrack.receive (h : v.OnTrack request tree id) (hrenders : request.Renders tree)
    (hstage : v.stage = .receiving) {event : Event} {e : Engine}
    (hreceive : v.engine.settle.receive = (some event, e)) :
    OnTrack request tree id ⟨e, v.seen ++ [event], .after event⟩ := by
  obtain ⟨w, observed, hcurrent, hserves⟩ := h
  have hcurrent' : v.engine.settle.current = some ⟨w.settle, observed⟩ := by
    rw [Engine.settle, hcurrent]
    rfl
  obtain ⟨events, hevents, rfl⟩ := receive_eq_some hcurrent' hreceive
  exact ⟨_, _, rfl, (hserves.settle hrenders).1.receive hstage hevents _⟩

/-- **A caller that waits for the worker sees the beginning of the story**, also if there is no
room for the image. -/
theorem OnTrack.watch_isPrefix (h : v.OnTrack request tree id) (hrenders : request.Renders tree)
    (hstage : v.stage = .receiving) (n : Nat) :
    v.seen ++ v.engine.watch n <+: request.story tree id := by
  induction n generalizing v with
  | zero =>
    rw [watch, List.append_nil]
    exact h.isPrefix
  | succ n ih =>
    rcases hreceive : v.engine.settle.receive with ⟨_ | event, e'⟩
    · have hnothing : v.engine.watch (n + 1) = [] := by rw [watch, hreceive]
      rw [hnothing, List.append_nil]
      exact h.isPrefix
    · have htrack := h.receive hrenders hstage hreceive
      cases event with
      | expression session canonical shader =>
        rw [watch_of_expression hreceive, List.append_cons]
        exact ih htrack rfl
      | failed session error =>
        obtain ⟨w, observed, -, hserves⟩ := htrack
        exact hserves.fits.elim
      | progress session current total image =>
        by_cases hlast : current = total
        · rw [watch_of_last hreceive hlast]
          exact htrack.isPrefix
        · obtain ⟨w, observed, hcurrent, hserves⟩ := htrack
          obtain ⟨hcommand, hserves'⟩ := hserves.ask (if_neg hlast) hcurrent
            (e'.withCurrent (w.queue .next) observed)
          rw [watch_of_step hreceive hlast hcommand, List.append_cons]
          exact ih ⟨_, _, rfl, hserves'⟩ rfl

end Watcher

/-! ### The events of a request -/

/-- Of a source that cannot be built, the failure is told and nothing else. -/
theorem watchRequest_of_build_eq_error (h : request.Presentable) {failure : Failure}
    (hbuild : request.source.build = .error failure) :
    watchRequest request = [.failed 1 (.derive (request.source.refusal failure))] := by
  obtain ⟨e, hstart⟩ : ∃ e, (new .default).start request = .ok (1, e) := ⟨_, rfl⟩
  have hran : Session.Ran (Session.new 1 request) [] (Session.new 1 request) := .start
  obtain ⟨s, hderive, -⟩ :=
    (Session.derive_tells h hran (List.forall_mem_nil _)).2.2 failure hbuild
  obtain ⟨e', hreceive⟩ := exists_receive_of_derive hstart hderive
  rw [watchRequest, hstart]
  simp only [watch, hreceive]

/-- **Of a source that can be built, the tree is told first, and only once**, unless there is no
room for the memo. -/
theorem watchRequest_of_build_eq_ok (h : request.Presentable) (hroom : ¬ request.LacksMemo)
    (hbuild : request.source.build = .ok tree) :
    ∃ events, watchRequest request = .expression 1 tree.render tree.shader :: events ∧
      ∀ event ∈ events, event.isExpression = false := by
  obtain ⟨e, hstart⟩ : ∃ e, (new .default).start request = .ok (1, e) := ⟨_, rfl⟩
  have hran : Session.Ran (Session.new 1 request) [] (Session.new 1 request) := .start
  obtain ⟨s, hderive, -⟩ :=
    (Session.derive_tells h hran (List.forall_mem_nil _)).1 tree hbuild hroom
  obtain ⟨e', hreceive⟩ := exists_receive_of_derive hstart hderive
  obtain ⟨htrack, -⟩ := Watcher.onTrack_new hstart tree
  have hprefix := htrack.watch_isPrefix (h.renders hbuild) rfl
    (stepCount request.width.toNat request.height.toNat + 1)
  rw [watchRequest, hstart]
  dsimp only
  rw [show (Watcher.new e).engine = e from rfl, watch_of_expression hreceive] at hprefix
  refine ⟨_, watch_of_expression hreceive, fun event hevent => ?_⟩
  -- What comes after the tree is among the steps of the story.
  obtain ⟨-, hsteps⟩ := List.cons_prefix_cons.mp hprefix
  obtain ⟨k, -, rfl⟩ := List.mem_map.mp (hsteps.subset hevent)
  rfl

end Engine

end GrammarArt
