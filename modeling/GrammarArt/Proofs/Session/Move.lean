import GrammarArt.Proofs.Refinement.Parity
import GrammarArt.Proofs.Session.Coherence

/-! # What an operation does to a session

Between operations a session stands in one of five ways (`Standing`): it is idle and has no
picture, it renders and owes work on its picture, it is done and owes none, or it was abandoned
or failed.  An operation on such a session, if it ends at all, makes one of six moves (`Move`,
`move_of_perform`): it does nothing but replace the feed, it fails, it brings a new picture, one
step of it, or the picture back to its beginning, or it abandons the session.  Each of them
leads to a session that stands as it should again (`Move.standing`).

All that is proved about the life of a session is read off these moves.
-/
namespace GrammarArt

namespace Renderer

/-- The number of steps of an image. -/
def total : Renderer → Nat
  | .interpreted r => r.total
  | .compiled _ _ => 1

/-- The number of steps behind it. -/
def completed : Renderer → Nat
  | .interpreted r => r.done
  | .compiled _ pending => if pending then 0 else 1

/-- Whether work is owed: a step that is not behind it, or a pass that is pending. -/
def Owes : Renderer → Prop
  | .interpreted r => r.done < r.total
  | .compiled _ pending => pending = true

theorem owes_iff {renderer : Renderer} : renderer.Owes ↔ renderer.completed < renderer.total := by
  cases renderer with
  | interpreted r => exact Iff.rfl
  | compiled program pending => cases pending <;> simp [Owes, completed, total]

theorem total_pos (renderer : Renderer) : 0 < renderer.total := by
  cases renderer with
  | interpreted r => exact r.total_pos
  | compiled program pending => exact Nat.one_pos

theorem owes_of_completed {renderer : Renderer} (h : renderer.completed = 0) : renderer.Owes := by
  rw [owes_iff, h]
  exact renderer.total_pos

theorem completed_restart (renderer : Renderer) :
    (Session.Renderer.restart renderer).completed = 0 := by
  cases renderer with
  | interpreted r => rfl
  | compiled program pending => rfl

end Renderer

namespace StartRequest

/-- The number of steps of the image of a request. -/
def steps (request : StartRequest) : Nat :=
  match request.backend with
  | .interpreted => stepCount request.width.toNat request.height.toNat
  | .compiled _ => 1

/-- A pass over the image has no room for its bytes, although the frame can have the size. -/
def LacksRoom (request : StartRequest) : Prop :=
  (∃ executor, request.backend = .compiled executor) ∧
    Frame.sizeError? request.width.toNat request.height.toNat = none ∧
    Memory.limit ≤ request.width.toNat * request.height.toNat * Frame.pixelBytes

end StartRequest

theorem Renderer.Fits.total_eq {request : StartRequest} {tree : Tree} {renderer : Renderer}
    (h : renderer.Fits request tree) : renderer.total = request.steps := by
  cases renderer with
  | interpreted r =>
    obtain ⟨hbackend, hwidth, hheight, -⟩ := h
    rw [total, Refinement.total, hwidth, hheight, StartRequest.steps, hbackend]
  | compiled program pending =>
    obtain ⟨⟨executor, hbackend⟩, -⟩ := h
    rw [total, StartRequest.steps, hbackend]

namespace Session

/-- How a session stands between operations. -/
structure Standing (s : Session) : Prop where
  not_building : s.state ≠ .building
  idle : s.state = .idle → s.picture = none
  rendering : s.state = .rendering → ∃ p, s.picture = some p ∧ p.renderer.Owes
  done : s.state = .done → ∃ p, s.picture = some p ∧ ¬ p.renderer.Owes

theorem standing_new (id : Nat) (request : StartRequest) : (new id request).Standing where
  not_building := nofun
  idle := fun _ => rfl
  rendering := nofun
  done := nofun

/-- The moves of a session. -/
inductive Move (s : Session) : Operation → Outcome → Prop where
  | quiet (op : Operation) (feed : Feed) : Move s op ⟨none, false, { s with feed := feed }⟩
  | failure (op : Operation) (error : SessionError) (picture : Option Picture)
    (hroot : picture.map Picture.tree = s.root)
    (htree : op = .advance → error ≠ .render (.unavailable .noTree)) :
    Move s op
      ⟨some (.failed s.id error), false, { s with state := .failed, picture := picture }⟩
  | expression (tree : Tree) (renderer : Renderer) (idle : s.state = .idle)
    (fresh : renderer.completed = 0) :
    Move s .derive
      ⟨some (.expression s.id tree.render tree.shader), false,
        { s with state := .rendering, picture := some ⟨tree, renderer⟩ }⟩
  | progress (tree : Tree) (before after : Renderer) (image : Frame)
    (rendering : s.state = .rendering) (hpicture : s.picture = some ⟨tree, before⟩)
    (owes : before.Owes) (hcompleted : after.completed = before.completed + 1)
    (htotal : after.total = before.total) :
    Move s .advance
      ⟨some (.progress s.id after.completed after.total image), false,
        { s with
          state := if after.completed = after.total then .done else .rendering
          picture := some ⟨tree, after⟩ }⟩
  | rerender (feed : Feed) (tree : Tree) (renderer : Renderer)
    (active : s.state = .rendering ∨ s.state = .done)
    (hpicture : s.picture = some ⟨tree, renderer⟩) :
    Move s (.setVariables feed)
      ⟨none, true, { s with
        feed := feed, state := .rendering
        picture := some ⟨tree, Renderer.restart renderer⟩ }⟩
  | abandon (rendering : s.state = .rendering) :
    Move s .cancel ⟨none, false, { s with state := .cancelled }⟩

variable {s : Session} {request : StartRequest} {feed : Feed} {o : Outcome}

/-! ### Every operation makes a move -/

theorem completed_of_prepare {tree : Tree} {renderer : Renderer}
    (h : prepare request tree = .ok (.ok renderer)) : renderer.completed = 0 := by
  unfold prepare at h
  split at h
  · split at h
    · cases h
    · cases h
    · rename_i r hstart
      cases h
      rw [Refinement.start_eq_ok hstart]
      rfl
  · split at h
    · cases h
      rfl
    · cases h

theorem move_of_derive {event : Event} {s' : Session} (h : s.derive = .ok (event, s')) :
    Move s .derive ⟨some event, false, s'⟩ := by
  unfold Session.derive at h
  split at h
  · cases h
    exact .failure _ _ _ rfl nofun
  · rename_i hidle
    rw [ne_eq, Decidable.not_not] at hidle
    split at h
    · cases h
      exact .failure _ _ _ rfl nofun
    · split at h
      · cases h
      · cases h
        exact .failure _ _ _ rfl nofun
      · rename_i renderer hprepare
        cases h
        exact .expression _ _ hidle (completed_of_prepare hprepare)

/-- A session that is idle, and whose tree can be rendered, tells it. -/
theorem perform_derive_of_prepare {tree : Tree} {renderer : Renderer} (hidle : s.state = .idle)
    (hbuild : s.request.build = .ok tree) (hprepare : prepare s.request tree = .ok (.ok renderer)) :
    s.perform .derive = .ok ⟨some (.expression s.id tree.render tree.shader), false,
      { s with state := .rendering, picture := some ⟨tree, renderer⟩ }⟩ := by
  rw [perform, derive, if_neg (not_not_intro hidle)]
  simp only [hbuild, hprepare]
  rfl

/-- A session that is idle, and whose tree cannot be rendered, fails. -/
theorem perform_derive_of_prepare_error {tree : Tree} {failure : Failure} (hidle : s.state = .idle)
    (hbuild : s.request.build = .ok tree)
    (hprepare : prepare s.request tree = .ok (.error failure)) :
    s.perform .derive =
      .ok ⟨some (.failed s.id (.render failure)), false, { s with state := .failed }⟩ := by
  rw [perform, derive, if_neg (not_not_intro hidle)]
  simp only [hbuild, hprepare]
  rfl

/-- A step that is owed is made. -/
theorem move_of_refine (hcoherent : s.Coherent request feed) (hrendering : s.state = .rendering)
    {tree : Tree} {r : Refinement} (hpicture : s.picture = some ⟨tree, .interpreted r⟩)
    (howes : r.done < r.total) :
    ∃ event, (s.refine tree r).1 = some event ∧
      Move s .advance ⟨some event, false, (s.refine tree r).2⟩ := by
  have hmemo : r.memo.RightFor r.width (r.paint tree s.feed) := by
    rw [hcoherent.feed_eq]
    exact hcoherent.rightFor _ hpicture (.inl hrendering)
  obtain ⟨memo, hstep, -⟩ := Refinement.step_eq_of_lt howes hmemo
  unfold Session.refine
  rw [hstep]
  refine ⟨_, rfl, ?_⟩
  rw [hrendering]
  exact .progress tree (.interpreted r) (.interpreted { r with done := r.done + 1, memo := memo }) _
    hrendering hpicture howes rfl rfl

/-- A pass that has room is made. -/
theorem move_of_pass (hrendering : s.state = .rendering) {tree : Tree} {program : Program}
    (hpicture : s.picture = some ⟨tree, .compiled program true⟩) {event : Event} {s' : Session}
    (h : s.pass tree program = .ok (event, s')) : Move s .advance ⟨some event, false, s'⟩ := by
  simp only [Session.pass] at h
  split at h
  · cases h
  · cases h
    refine .failure _ _ _ ?_ (by rintro - ⟨⟩)
    rw [root, hpicture]
    rfl
  · cases h
    exact .progress tree (.compiled program true) (.compiled program false) _ hrendering hpicture
      rfl rfl rfl

/-- A pass ends the run exactly when there is no room for its image. -/
theorem exists_pass_eq_error_iff {tree : Tree} {program : Program} :
    (∃ e, s.pass tree program = .error e) ↔
      Frame.sizeError? s.request.width.toNat s.request.height.toNat = none ∧
        Memory.limit ≤ s.request.width.toNat * s.request.height.toNat * Frame.pixelBytes := by
  simp only [Session.pass, Program.image]
  cases Frame.sizeError? s.request.width.toNat s.request.height.toNat with
  | some e => simp
  | none =>
    by_cases hroom :
        s.request.width.toNat * s.request.height.toNat * Frame.pixelBytes < Memory.limit
    · simp [Memory.reserve_eq_ok_iff.mpr hroom, hroom]
    · have hlimit := Nat.not_lt.mp hroom
      simp [Memory.reserve, hlimit]

theorem advance_of_pending (hrendering : s.state = .rendering) {tree : Tree} {program : Program}
    (hpicture : s.picture = some ⟨tree, .compiled program true⟩) :
    s.advance = (s.pass tree program).map fun (event, s') => (some event, s') := by
  unfold Session.advance
  rw [if_neg (not_not_intro hrendering), hpicture]
  simp only
  cases s.pass tree program with
  | error e => rfl
  | ok result => rfl

/-- **A session that renders makes a move when it advances**, unless there is no room for it. -/
theorem advance_of_rendering (hs : s.Standing) (hcoherent : s.Coherent request feed)
    (hrendering : s.state = .rendering) :
    (¬ s.request.LacksRoom ∧
        ∃ event s', s.advance = .ok (some event, s') ∧ Move s .advance ⟨some event, false, s'⟩) ∨
      (s.request.LacksRoom ∧ ∃ e, s.advance = .error e) := by
  obtain ⟨⟨tree, renderer⟩, hpicture, howes⟩ := hs.rendering hrendering
  have hfits := hcoherent.fits _ hpicture
  rw [← hcoherent.request_eq] at hfits
  cases renderer with
  | interpreted r =>
    -- A refinement has its memory since it was started, so its steps never lack room.
    obtain ⟨event, hevent, hmove⟩ := move_of_refine hcoherent hrendering hpicture howes
    refine .inl ⟨?_, event, _, ?_, hmove⟩
    · rintro ⟨⟨executor, hbackend⟩, -⟩
      rw [hfits.1] at hbackend
      cases hbackend
    · rw [advance, if_neg (not_not_intro hrendering), hpicture]
      exact congrArg Except.ok (Prod.ext hevent rfl)
  | compiled program pending =>
    cases (howes : pending = true)
    have hadvance := advance_of_pending hrendering hpicture
    have hlacks : s.request.LacksRoom ↔ ∃ e, s.pass tree program = .error e := by
      rw [exists_pass_eq_error_iff, StartRequest.LacksRoom, and_iff_right hfits.1]
    cases hresult : s.pass tree program with
    | ok result =>
      rw [hresult] at hadvance hlacks
      refine .inl ⟨fun hroom => ?_, result.1, result.2, hadvance,
        move_of_pass hrendering hpicture hresult⟩
      obtain ⟨e, he⟩ := hlacks.mp hroom
      cases he
    | error e =>
      rw [hresult] at hadvance hlacks
      exact .inr ⟨hlacks.mpr ⟨e, rfl⟩, e, hadvance⟩

theorem advance_of_not_rendering (h : s.state ≠ .rendering) : s.advance = .ok (none, s) := by
  rw [advance, if_pos h]

theorem move_of_setVariables (s : Session) (feed : Feed) :
    Move s (.setVariables feed) ⟨none, (s.setVariables feed).1, (s.setVariables feed).2⟩ := by
  simp only [Session.setVariables]
  split
  · exact .quiet _ feed
  · rename_i tree renderer hpicture
    split
    · rename_i hactive
      exact .rerender feed tree renderer hactive.2 hpicture
    · exact .quiet _ feed

theorem move_of_cancel (hs : s.Standing) : Move s .cancel ⟨none, false, s.cancel⟩ := by
  unfold Session.cancel
  split
  · rename_i hstate
    exact .abandon (hstate.resolve_left hs.not_building)
  · exact .quiet _ s.feed

/-- **Every operation that ends makes a move.** -/
theorem move_of_perform (hs : s.Standing) (hcoherent : s.Coherent request feed) {op : Operation}
    (h : s.perform op = .ok o) : Move s op o := by
  cases op with
  | derive =>
    obtain ⟨event, s', hderive, rfl⟩ := perform_derive_eq_ok_iff.mp h
    exact move_of_derive hderive
  | advance =>
    obtain ⟨event, s', hadvance, rfl⟩ := perform_advance_eq_ok_iff.mp h
    by_cases hrendering : s.state = .rendering
    · rcases advance_of_rendering hs hcoherent hrendering with
        ⟨-, event', s'', hok, hmove⟩ | ⟨-, e, he⟩
      · rw [hok] at hadvance
        cases hadvance
        exact hmove
      · rw [he] at hadvance
        cases hadvance
    · rw [advance_of_not_rendering hrendering] at hadvance
      cases hadvance
      exact .quiet _ s.feed
  | setVariables feed' =>
    cases h
    exact move_of_setVariables s feed'
  | cancel =>
    cases h
    exact move_of_cancel hs

/-! ### What moves keep -/

/-- **After a move the session stands as it should.** -/
theorem Move.standing {op : Operation} (hs : s.Standing) (h : Move s op o) :
    o.session.Standing := by
  cases h with
  | quiet op feed => exact ⟨hs.not_building, hs.idle, hs.rendering, hs.done⟩
  | failure op error picture hroot htree => exact ⟨nofun, nofun, nofun, nofun⟩
  | expression tree renderer hidle hfresh =>
    exact ⟨nofun, nofun, fun _ => ⟨_, rfl, Renderer.owes_of_completed hfresh⟩, nofun⟩
  | progress tree before after image hrendering hpicture howes hcompleted htotal =>
    -- The step was owed, so it is not beyond the last one.
    have hle : after.completed ≤ after.total := by
      rw [hcompleted, htotal]
      exact Renderer.owes_iff.mp howes
    by_cases hlast : after.completed = after.total
    · have hpaid : ¬ after.Owes := by
        rw [Renderer.owes_iff, hlast]
        exact Nat.lt_irrefl _
      simp only [if_pos hlast]
      exact ⟨nofun, nofun, nofun, fun _ => ⟨_, rfl, hpaid⟩⟩
    · have howed : after.Owes := Renderer.owes_iff.mpr (Nat.lt_of_le_of_ne hle hlast)
      simp only [if_neg hlast]
      exact ⟨nofun, nofun, fun _ => ⟨_, rfl, howed⟩, nofun⟩
  | rerender feed tree renderer hactive hpicture =>
    refine ⟨nofun, nofun, fun _ => ⟨_, rfl, ?_⟩, nofun⟩
    exact Renderer.owes_of_completed (Renderer.completed_restart renderer)
  | abandon hrendering => exact ⟨nofun, nofun, nofun, nofun⟩

theorem Move.id_eq {op : Operation} (h : Move s op o) : o.session.id = s.id := by
  cases h with
  | _ => rfl

/-- **An event tells its session and the state that it leaves the session in.** -/
theorem Move.of_event {op : Operation} (h : Move s op o) {event : Event}
    (hevent : o.event = some event) :
    event.session = s.id ∧ o.session.state = event.stateAfter := by
  cases h with
  | quiet op feed => cases hevent
  | failure op error picture hroot htree =>
    cases hevent
    exact ⟨rfl, rfl⟩
  | expression tree renderer hidle hfresh =>
    cases hevent
    exact ⟨rfl, rfl⟩
  | progress tree before after image hrendering hpicture howes hcompleted htotal =>
    cases hevent
    exact ⟨rfl, rfl⟩
  | rerender feed tree renderer hactive hpicture => cases hevent
  | abandon hrendering => cases hevent

/-- A new feed leaves a session in its state unless it makes it render again. -/
theorem state_setVariables (s : Session) (feed : Feed) :
    (s.setVariables feed).2.state = if (s.setVariables feed).1 then .rendering else s.state := by
  simp only [Session.setVariables]
  split
  · rfl
  · split
    · rfl
    · rfl

/-- A session that advances without an event did not render, and stays as it was. -/
theorem of_perform_advance_none (hs : s.Standing) (hcoherent : s.Coherent request feed)
    (h : s.perform .advance = .ok o) (hevent : o.event = none) :
    s.state ≠ .rendering ∧ o.session = s := by
  obtain ⟨event, s', hadvance, rfl⟩ := perform_advance_eq_ok_iff.mp h
  by_cases hrendering : s.state = .rendering
  · rcases advance_of_rendering hs hcoherent hrendering with ⟨-, event', s'', hok, -⟩ | ⟨-, e, he⟩
    · rw [hok] at hadvance
      cases hadvance
      cases hevent
    · rw [he] at hadvance
      cases hadvance
  · rw [advance_of_not_rendering hrendering] at hadvance
    cases hadvance
    exact ⟨hrendering, rfl⟩

end Session

end GrammarArt
