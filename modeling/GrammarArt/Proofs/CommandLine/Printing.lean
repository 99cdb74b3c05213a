import GrammarArt.CommandLine.Run
import GrammarArt.CommandLine.Sandbox
import GrammarArt.Proofs.Engine.Telling

/-! # What commands print

A command that renders an image prints the canonical text of its tree on the way, and one that is
only asked for the text prints just that.  The first comes to its tree through an engine, a
worker and a session, whatever the backend; the second builds the source on the spot.  Still both
print the same (`printed_render_eq_printed_expr`).

Of all that the first command does, only the telling of the tree is printed: reading and writing
files and reporting are `Silent`.
-/
namespace GrammarArt

namespace CommandLine

/-! ### Tasks in a sandbox -/

namespace Task

variable {α β : Type}

/-- The result of a task in a sandbox, and the sandbox after it. -/
def runIn (task : Task (StateM Sandbox) α) (sandbox : Sandbox) : Except Trouble α × Sandbox :=
  ExceptT.run task sandbox

/-- All that is printed in a sandbox once a task has ended. -/
def printed (task : Task (StateM Sandbox) α) (sandbox : Sandbox) : String :=
  (task.runIn sandbox).2.printed

/-- Nothing is printed by a task. -/
def Silent (task : Task (StateM Sandbox) α) : Prop :=
  ∀ sandbox, task.printed sandbox = sandbox.printed

variable {task : Task (StateM Sandbox) α} {next : α → Task (StateM Sandbox) β}
  {sandbox sandbox' : Sandbox}

theorem runIn_bind_of_ok {a : α} (h : task.runIn sandbox = (.ok a, sandbox')) :
    (task >>= next).runIn sandbox = (next a).runIn sandbox' := by
  have hbind : (task >>= next).runIn sandbox =
      (ExceptT.bindCont next (task.runIn sandbox).1) (task.runIn sandbox).2 := rfl
  rw [hbind, h]
  rfl

theorem runIn_bind_of_error {trouble : Trouble}
    (h : task.runIn sandbox = (.error trouble, sandbox')) :
    (task >>= next).runIn sandbox = (.error trouble, sandbox') := by
  have hbind : (task >>= next).runIn sandbox =
      (ExceptT.bindCont next (task.runIn sandbox).1) (task.runIn sandbox).2 := rfl
  rw [hbind, h]
  rfl

/-- Two tasks that begin alike print the same if they print the same from there on. -/
theorem printed_bind_congr {γ : Type} {next' : α → Task (StateM Sandbox) γ}
    (h : ∀ a sandbox, (next a).printed sandbox = (next' a).printed sandbox) (sandbox : Sandbox) :
    (task >>= next).printed sandbox = (task >>= next').printed sandbox := by
  rcases hrun : task.runIn sandbox with ⟨trouble | a, sandbox'⟩
  · rw [printed, printed, runIn_bind_of_error hrun, runIn_bind_of_error hrun]
  · rw [printed, printed, runIn_bind_of_ok hrun, runIn_bind_of_ok hrun]
    exact h a sandbox'

/-- What a task prints is all that is printed if what follows is silent. -/
theorem printed_bind (h : ∀ a, (next a).Silent) (sandbox : Sandbox) :
    (task >>= next).printed sandbox = task.printed sandbox := by
  rcases hrun : task.runIn sandbox with ⟨trouble | a, sandbox'⟩
  · rw [printed, printed, runIn_bind_of_error hrun, hrun]
  · rw [printed, printed, runIn_bind_of_ok hrun, hrun]
    exact h a sandbox'

namespace Silent

theorem pure (a : α) : Silent (Pure.pure a : Task (StateM Sandbox) α) := fun _ => rfl

theorem throw (trouble : Trouble) : Silent (throw trouble : Task (StateM Sandbox) α) :=
  fun _ => rfl

theorem bind (h : task.Silent) (hnext : ∀ a, (next a).Silent) : (task >>= next).Silent :=
  fun sandbox => (printed_bind hnext sandbox).trans (h sandbox)

end Silent

end Task

/-! ### What is silent -/

open CommandLine.Task (Silent)

theorem silent_lift {α : Type} {action : StateM Sandbox α}
    (h : ∀ sandbox, (action sandbox).2.printed = sandbox.printed) :
    Silent (ExceptT.lift action) := h

theorem silent_report (text : String) :
    Silent (Host.report text : Task (StateM Sandbox) Unit) := silent_lift fun _ => rfl

/-- Only the disk of a sandbox is changed. -/
theorem printed_change (f : Disk → Except FileError Disk) (sandbox : Sandbox) :
    (Sandbox.change f sandbox).2.printed = sandbox.printed := by
  unfold Sandbox.change
  split
  · rfl
  · rfl

theorem silent_writeText (path text : String) :
    Silent (Host.writeText path text : Task (StateM Sandbox) _) :=
  silent_lift (printed_change _)

theorem silent_writeImage (path : String) (image : Frame) :
    Silent (Host.writeImage path image : Task (StateM Sandbox) _) :=
  silent_lift (printed_change _)

theorem silent_makeDirectory (path : String) :
    Silent (Host.makeDirectory path : Task (StateM Sandbox) _) :=
  silent_lift (printed_change _)

theorem silent_file {α : Type} (doing : String)
    {action : Task (StateM Sandbox) (Except FileError α)} (h : action.Silent) :
    (file doing action).Silent := by
  refine h.bind fun result => ?_
  cases result with
  | error e => exact .throw _
  | ok a => exact .pure a

theorem silent_makeDirectories (paths : List String) :
    Silent (makeDirectories paths : Task (StateM Sandbox) _) := by
  induction paths with
  | nil => exact .pure _
  | cons path above ih =>
    refine (silent_makeDirectory path).bind fun outcome => ?_
    split
    · refine ih.bind fun result => ?_
      cases result with
      | error e => exact .pure _
      | ok _ => exact silent_makeDirectory path
    · exact .pure _

theorem silent_makeParent (path : String) :
    Silent (makeParent path : Task (StateM Sandbox) Unit) := by
  unfold makeParent
  split
  · exact .pure _
  · exact silent_file _ (silent_makeDirectories _)

/-- Events that tell no tree are followed in silence. -/
theorem silent_follow (shaderOut : Option String) {events : List Event}
    (h : ∀ event ∈ events, event.isExpression = false) :
    Silent (follow shaderOut events : Task (StateM Sandbox) Frame) := by
  induction events with
  | nil => exact .throw _
  | cons event events ih =>
    obtain ⟨hevent, hrest⟩ := List.forall_mem_cons.mp h
    cases event with
    | expression session canonical shader => cases hevent
    | failed session error => exact .throw _
    | progress session current total image =>
      rw [follow]
      split
      · exact .pure _
      · exact ih hrest

/-- Of a tree that is told, the canonical text is printed. -/
theorem printed_follow_expression (shaderOut : Option String) (session : Nat)
    (canonical shader : String) {events : List Event}
    (h : ∀ event ∈ events, event.isExpression = false) (sandbox : Sandbox) :
    (follow shaderOut (.expression session canonical shader :: events) :
      Task (StateM Sandbox) Frame).printed sandbox = sandbox.printed ++ s!"{canonical}\n" := by
  rw [follow]
  have hprint : (Host.print s!"{canonical}\n" : Task (StateM Sandbox) Unit).printed sandbox =
      sandbox.printed ++ s!"{canonical}\n" := rfl
  refine (Task.printed_bind (fun _ => ?_) sandbox).trans hprint
  cases shaderOut with
  | none => exact silent_follow none h
  | some path =>
    refine (silent_makeParent path).bind fun _ => ?_
    exact (silent_file _ (silent_writeText path shader)).bind fun _ => silent_follow (some path) h

/-! ### Images and texts -/

/-- The request for a source that options without a file describe. -/
def RenderOptions.request (options : RenderOptions) (source : Source) : StartRequest where
  source := source
  width := options.width
  height := options.height
  backend := options.backend
  time := options.time
  feed := assign .none options.assignments

variable {options : RenderOptions} {request : StartRequest}

/-- A command for an image comes to its source as one for a text does, and follows the events of
the request. -/
theorem render_eq (hconfig : options.config = none) :
    (render options : Task (StateM Sandbox) Unit) = (do
      let source ← sourceOf options.source
      let image ← follow options.shaderOut (Engine.watchRequest (options.request source))
      makeParent options.out
      file s!"write png '{options.out}'" (Host.writeImage options.out image)
      Host.report s!"wrote {options.out}\n") := by
  rw [render, requestOf, hconfig]
  simp only [bind_assoc, pure_bind]
  rfl

/-- What is printed on the way to an image, for every source: its canonical text. -/
theorem printed_follow_watchRequest (shaderOut : Option String) (h : request.Presentable)
    (hroom : ¬ request.LacksMemo) (sandbox : Sandbox) :
    (follow shaderOut (Engine.watchRequest request) : Task (StateM Sandbox) Frame).printed sandbox =
      match request.source.build with
      | .error _ => sandbox.printed
      | .ok tree => sandbox.printed ++ s!"{tree.render}\n" := by
  cases hbuild : request.source.build with
  | error failure =>
    rw [Engine.watchRequest_of_build_eq_error h hbuild]
    rfl
  | ok tree =>
    obtain ⟨events, hevents, hnone⟩ := Engine.watchRequest_of_build_eq_ok h hroom hbuild
    rw [hevents]
    exact printed_follow_expression shaderOut 1 tree.render tree.shader hnone sandbox

/-- The options give the size, the time and the backend of a request, and name no file for it. -/
structure RenderOptions.Describe (options : RenderOptions) (request : StartRequest) : Prop where
  config_eq : options.config = none
  width_eq : options.width = request.width
  height_eq : options.height = request.height
  backend_eq : options.backend = request.backend
  time_eq : options.time = request.time

namespace RenderOptions.Describe

theorem request_eq (h : options.Describe request) (source : Source) :
    options.request source =
      { request with source := source, feed := assign .none options.assignments } := by
  rw [RenderOptions.request, h.width_eq, h.height_eq, h.backend_eq, h.time_eq]

theorem presentable (h : options.Describe request) (hrequest : request.Presentable)
    (source : Source) : (options.request source).Presentable := by
  rw [h.request_eq]
  exact ⟨hrequest.width_ne, hrequest.height_ne, hrequest.time_finite, hrequest.size_lt,
    hrequest.backend_eq⟩

theorem lacksMemo_iff (h : options.Describe request) (source : Source) :
    (options.request source).LacksMemo ↔ request.LacksMemo := by
  rw [h.request_eq]
  rfl

end RenderOptions.Describe

/-- **Both commands print the same**, whatever the source. -/
theorem printed_render_eq (hoptions : options.Describe request) (h : request.Presentable)
    (hroom : ¬ request.LacksMemo) (sandbox : Sandbox) :
    (perform (.render options)).printed sandbox =
      (perform (.expr options.source false)).printed sandbox := by
  rw [perform, perform, render_eq hoptions.config_eq, expr]
  refine Task.printed_bind_congr (fun source sandbox => ?_) sandbox
  have hsilent (image : Frame) : Silent (do
      makeParent options.out
      file s!"write png '{options.out}'" (Host.writeImage options.out image)
      Host.report s!"wrote {options.out}\n") :=
    (silent_makeParent _).bind fun _ =>
      (silent_file _ (silent_writeImage _ image)).bind fun _ => silent_report _
  have hroom' := mt (hoptions.lacksMemo_iff source).mp hroom
  have hsource : (options.request source).source = source := rfl
  rw [Task.printed_bind hsilent,
    printed_follow_watchRequest _ (hoptions.presentable h source) hroom', hsource]
  cases source.build with
  | error failure => rfl
  | ok tree => rfl

/-- **What is told and printed of a tree is what its source builds, whatever the backend.**  For a
request whose size, time and backend are in order, and whatever was asked of its session before
it first derives its tree:

* if a tree is built from the source, then it is told, with its canonical text and its shader,
  and the session renders it; but if there is no room for the memo of the image, the derivation
  breaks down;
* if none is built, then the derivation fails and the session with it, without a tree, and what
  is told is the failure of the source, except that a source that is too deep is refused as
  such; and from such a source no tree is built;
* if there is room for the memo, then the command for an image of this size, with this time and
  this backend, prints for every source what the command for the text prints. -/
theorem tree_told_and_printed (h : request.Presentable) :
    (∀ id past s, Session.Ran (Session.new id request) past s →
      (∀ call ∈ past, call.1 ≠ .derive) →
        (∀ tree, request.source.build = .ok tree → ¬ request.LacksMemo →
          ∃ s', s.derive = .ok (.expression id tree.render tree.shader, s') ∧
            s'.state = .rendering ∧ s'.root = some tree) ∧
        (∀ tree, request.source.build = .ok tree → request.LacksMemo →
          ∃ e, s.derive = .error e) ∧
        (∀ failure, request.source.build = .error failure →
          ∃ s', s.derive = .ok (.failed id (.derive (request.source.refusal failure)), s') ∧
            s'.state = .failed ∧ s'.root = none)) ∧
    (¬ request.source.TooDeep → ∀ failure, request.source.refusal failure = failure) ∧
    (request.source.TooDeep → ∃ failure, request.source.build = .error failure) ∧
    (¬ request.LacksMemo → ∀ options : RenderOptions, options.Describe request → ∀ sandbox,
      (perform (.render options)).printed sandbox =
        (perform (.expr options.source false)).printed sandbox) :=
  ⟨fun _ _ _ hran hfirst => Session.derive_tells h hran hfirst,
    Source.refusal_of_not_tooDeep, Source.exists_build_eq_error,
    fun hroom _ hoptions sandbox => printed_render_eq hoptions h hroom sandbox⟩

/-- The tree of a terminal symbol, with a program and a single pass. -/
theorem tree_told_and_printed_x :
    (∃ s', (Session.new 0 ⟨.expression "x", 2, 2, .compiled .cpu, 0, .none⟩).derive =
        .ok (.expression 0 "x" (Tree.shader (.terminal 0 .x)), s') ∧
      s'.state = .rendering ∧ s'.root = some (.terminal 0 .x)) ∧
    (perform (.render ⟨⟨some "x", none, "", none, none⟩, 2, 2, .compiled .cpu, 0, [], "out.png",
      none, none⟩)).printed (.ofTexts []) = "x\n" := by
  have hpresentable : StartRequest.Presentable ⟨.expression "x", 2, 2, .compiled .cpu, 0, .none⟩ :=
    ⟨by decide, by decide, by decide, by decide, .inr rfl⟩
  have hroom : ¬ StartRequest.LacksMemo ⟨.expression "x", 2, 2, .compiled .cpu, 0, .none⟩ := nofun
  obtain ⟨htells, -, -, hprints⟩ := tree_told_and_printed hpresentable
  refine ⟨?_, ?_⟩
  · exact (htells 0 [] _ .start (List.forall_mem_nil _)).1 (.terminal 0 .x) (by cbv)
      hroom
  · rw [hprints hroom _ ⟨rfl, rfl, rfl, rfl, rfl⟩]
    cbv

/-- Not every tree that is built is told: here there is no room for the memo. -/
theorem exists_built_tree_untold :
    ¬ ∀ (id : Nat) (request : StartRequest) (tree : Tree), request.Presentable →
      request.source.build = .ok tree →
        ∃ s', (Session.new id request).derive =
          .ok (.expression id tree.render tree.shader, s') := by
  intro hall
  have hpresentable : StartRequest.Presentable
      ⟨.expression "x", 4294967295, 1073741824, .interpreted, 0, .none⟩ :=
    ⟨by decide, by decide, by decide, by decide, .inl rfl⟩
  have hbuild : Source.build (.expression "x") = .ok (.terminal 0 .x) := by cbv
  obtain ⟨s', htold⟩ := hall 0 _ _ hpresentable hbuild
  obtain ⟨e, he⟩ := (Session.derive_tells hpresentable .start (List.forall_mem_nil _)).2.1 _ hbuild
    ⟨rfl, by decide⟩
  cases htold.symm.trans he

end CommandLine

end GrammarArt
