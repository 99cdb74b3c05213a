import GrammarArt.Proofs.Session.Fault

/-! # The story of an image

A session that is only asked to derive its tree and then for one step after another tells the
same story every time: the tree, and then the steps of the image, one by one
(`StartRequest.story`).  It is at some point of it (`Session.IsAt`), and the next operation
takes it to the next point (`of_perform_derive`, `IsAt.of_perform_advance`), unless there is no
room for what the request asks for (`StartRequest.ExceedsMemory`).  In this case it breaks down
before the first step.
-/
namespace GrammarArt

/-- The bytes that a backend needs at once for a pixel: those of its memo, or those of the
image. -/
def Backend.bytesPerPixel : Backend → Nat
  | .interpreted => Memo.slotBytes
  | .compiled _ => Frame.pixelBytes

namespace StartRequest

/-- A tree can be built from the request, and its image can be rendered: there is something to
render it with, and its bytes can be counted. -/
structure Renders (request : StartRequest) (tree : Tree) : Prop where
  build_eq : request.build = .ok tree
  isAvailable : request.backend.isAvailable = true
  size_lt : request.width.toNat * request.height.toNat * Frame.pixelBytes < UInt64.size

/-- There is no object in memory with room for all the pixels of the image. -/
def ExceedsMemory (request : StartRequest) : Prop :=
  Memory.limit ≤ request.width.toNat * request.height.toNat * request.backend.bytesPerPixel

/-- The image of a step. -/
def frame (request : StartRequest) (tree : Tree) (current : Nat) : Frame :=
  Frame.showing tree request.width.toNat request.height.toNat request.time request.feed
    (request.backend.stride current request.steps)

/-- The event of a step. -/
def stepEvent (request : StartRequest) (tree : Tree) (id current : Nat) : Event :=
  .progress id current request.steps (request.frame tree current)

/-- The events of an image: its tree, and then its steps. -/
def story (request : StartRequest) (tree : Tree) (id : Nat) : List Event :=
  .expression id tree.render tree.shader ::
    (List.range request.steps).map fun k => request.stepEvent tree id (k + 1)

variable {request : StartRequest} {tree : Tree} {id : Nat}

theorem steps_pos (request : StartRequest) : 0 < request.steps := by
  unfold steps
  split
  · exact Nat.lt_of_lt_of_le Nat.one_pos (Nat.le_max_left _ _)
  · exact Nat.one_pos

@[simp] theorem length_story (request : StartRequest) (tree : Tree) (id : Nat) :
    (request.story tree id).length = request.steps + 1 := by
  simp [story]

theorem story_zero (request : StartRequest) (tree : Tree) (id : Nat) :
    (request.story tree id)[0]? = some (.expression id tree.render tree.shader) := rfl

theorem story_succ {k : Nat} (hk : k < request.steps) (tree : Tree) (id : Nat) :
    (request.story tree id)[k + 1]? = some (request.stepEvent tree id (k + 1)) := by
  rw [story, List.getElem?_cons_succ, List.getElem?_map, List.getElem?_range hk]
  rfl

/-- The image of the last step has all pixels of the frame. -/
theorem frame_steps (request : StartRequest) (tree : Tree) :
    request.frame tree request.steps =
      Frame.ofPlaces request.width.toNat request.height.toNat fun col row =>
        (tree.eval (Frame.point request.width.toNat request.height.toNat request.time col row)
          request.feed).pixel := by
  have hstride : request.backend.stride request.steps request.steps = 1 := by
    cases request.backend with
    | interpreted => rw [Backend.stride, Nat.sub_self, Nat.pow_zero]
    | compiled executor => rfl
  rw [frame, hstride, Frame.showing_one]

namespace Renders

theorem sizeError?_eq_none (h : request.Renders tree) :
    Frame.sizeError? request.width.toNat request.height.toNat = none := by
  cases hsize : Frame.sizeError? request.width.toNat request.height.toNat with
  | none => rfl
  | some e => exact absurd h.size_lt (Nat.not_lt.mpr (size_le_of_build h.build_eq hsize))

end Renders

/-- There is room for a pass over the image if there is room for all that is needed. -/
theorem LacksRoom.exceedsMemory (h : request.LacksRoom) : request.ExceedsMemory := by
  obtain ⟨⟨executor, hbackend⟩, -, hlimit⟩ := h
  rw [ExceedsMemory, hbackend]
  exact hlimit

end StartRequest

namespace Session

variable {request : StartRequest} {tree : Tree} {s : Session} {id k : Nat} {o : Outcome}

/-- The session has told the tree and the first `k` steps, and nothing else was asked of it. -/
structure IsAt (request : StartRequest) (tree : Tree) (id k : Nat) (s : Session) : Prop where
  coherent : s.Coherent request request.feed
  standing : s.Standing
  id_eq : s.id = id
  exists_picture : ∃ renderer, s.picture = some ⟨tree, renderer⟩ ∧ renderer.completed = k
  state_eq : s.state = if k = request.steps then .done else .rendering

theorem prepare_of_renders (h : request.Renders tree) :
    (∃ renderer, prepare request tree = .ok (.ok renderer)) ∨
      request.ExceedsMemory ∧ ∃ e, prepare request tree = .error e := by
  unfold prepare
  cases hbackend : request.backend with
  | interpreted =>
    simp only [Refinement.start, h.sizeError?_eq_none]
    by_cases hroom :
        request.width.toNat * request.height.toNat * Memo.slotBytes < Memory.limit
    · rw [Memory.reserve_eq_ok_iff.mpr hroom]
      exact .inl ⟨_, rfl⟩
    · have hlimit := Nat.not_lt.mp hroom
      rw [Memory.reserve, if_pos hlimit, StartRequest.ExceedsMemory, hbackend]
      exact .inr ⟨hlimit, _, rfl⟩
  | compiled executor =>
    have havailable := h.isAvailable
    rw [hbackend] at havailable
    exact .inl ⟨_, if_pos havailable⟩

/-- **A derivation tells the tree.** -/
theorem of_perform_derive (hrenders : request.Renders tree)
    (hcall : (new id request).perform .derive = .ok o) :
    o.event = some (.expression id tree.render tree.shader) ∧
      o.session.IsAt request tree id 0 := by
  have hcoherent : (new id request).Coherent request (feedAfter request.feed []) :=
    coherent_new id request
  have hmove := move_of_perform (standing_new id request) hcoherent hcall
  have hafter := (hcoherent.perform hcall).1
  rcases prepare_of_renders hrenders with ⟨renderer, hprepare⟩ | ⟨-, e, hprepare⟩
  · have htells := perform_derive_of_prepare (s := new id request) rfl hrenders.build_eq hprepare
    cases hcall.symm.trans htells
    refine ⟨rfl, hafter, hmove.standing (standing_new id request), rfl,
      ⟨renderer, rfl, completed_of_prepare hprepare⟩, ?_⟩
    rw [if_neg request.steps_pos.ne]
  · obtain ⟨event, s', hderive, -⟩ := perform_derive_eq_ok_iff.mp hcall
    have hidle : (new id request).state = .idle := rfl
    rw [derive, if_neg (not_not_intro hidle)] at hderive
    simp only [new, hrenders.build_eq, hprepare] at hderive
    cases hderive

theorem exceedsMemory_of_derive (hrenders : request.Renders tree) {e : Exhausted}
    (hcall : (new id request).perform .derive = .error e) : request.ExceedsMemory := by
  rcases prepare_of_renders hrenders with ⟨renderer, hprepare⟩ | ⟨hexceeds, -⟩
  · have htells := perform_derive_of_prepare (s := new id request) rfl hrenders.build_eq hprepare
    cases hcall.symm.trans htells
  · exact hexceeds

/-- The steps of a tree that can be rendered do not fail. -/
theorem advance_ne_failed (hsize : Frame.sizeError? s.request.width.toNat
      s.request.height.toNat = none) (hroot : s.root ≠ none) {session : Nat}
    {error : SessionError} {s' : Session} :
    s.advance ≠ .ok (some (.failed session error), s') := by
  intro h
  unfold Session.advance at h
  split at h
  · cases h
  · split at h
    · rename_i hpicture
      rw [root, hpicture] at hroot
      exact hroot rfl
    · unfold Session.refine at h
      split at h <;> cases h
    · cases h
    · split at h
      · cases h
      · rename_i tree program _ event s'' hpass
        cases h
        simp only [Session.pass] at hpass
        split at hpass
        · cases hpass
        · rename_i e himage
          unfold Program.image at himage
          rw [hsize] at himage
          split at himage
          · rename_i hsome
            cases hsome
          · split at himage <;> cases himage
        · cases hpass

/-- **An operation tells the next step.** -/
theorem IsAt.of_perform_advance (h : s.IsAt request tree id k) (hrenders : request.Renders tree)
    (hk : k < request.steps) (hcall : s.perform .advance = .ok o) :
    o.event = some (request.stepEvent tree id (k + 1)) ∧
      o.session.IsAt request tree id (k + 1) := by
  have hrendering : s.state = .rendering := by rw [h.state_eq, if_neg hk.ne]
  obtain ⟨renderer, hpicture, rfl⟩ := h.exists_picture
  have hcoherent : s.Coherent request (feedAfter request.feed []) := h.coherent
  obtain ⟨hafter, hshows⟩ := hcoherent.perform hcall
  obtain ⟨event, s', hadvance, rfl⟩ := perform_advance_eq_ok_iff.mp hcall
  -- That there is an event is known from the move, and its image from the coherence.
  rcases advance_of_rendering h.standing h.coherent hrendering with
    ⟨-, event', s'', hok, hmove⟩ | ⟨-, e, he⟩
  · cases hadvance.symm.trans hok
    have hstanding := hmove.standing h.standing
    have htotal := (h.coherent.fits _ hpicture).total_eq
    cases hmove with
    | failure op error picture =>
      have hsize := hrenders.sizeError?_eq_none
      rw [← h.coherent.request_eq] at hsize
      have hroot : s.root ≠ none := by
        rw [root, hpicture]
        exact Option.some_ne_none _
      exact absurd hok (advance_ne_failed hsize hroot)
    | progress tree' before after image _ hpicture' howes hcompleted htotal' =>
      cases hpicture.symm.trans hpicture'
      obtain ⟨tree', hbuild, -, -, -, himage⟩ := hshows _ _ _ _ rfl
      cases hrenders.build_eq.symm.trans hbuild
      have hafterTotal : after.total = request.steps := htotal'.trans htotal
      rw [hcompleted, hafterTotal] at himage
      refine ⟨?_, hafter, hstanding, h.id_eq, ⟨after, rfl, hcompleted⟩, ?_⟩
      · rw [hcompleted, hafterTotal, h.id_eq, himage.eq_showing]
        rfl
      · rw [← hcompleted, ← hafterTotal]
  · rw [he] at hadvance
    cases hadvance

theorem IsAt.exceedsMemory_of_advance (h : s.IsAt request tree id k) (hk : k < request.steps)
    {e : Exhausted} (hcall : s.perform .advance = .error e) :
    k = 0 ∧ request.ExceedsMemory := by
  have hrendering : s.state = .rendering := by rw [h.state_eq, if_neg hk.ne]
  rcases advance_of_rendering h.standing h.coherent hrendering with
    ⟨-, event, s', hadvance, -⟩ | ⟨hroom, -⟩
  · rw [perform_advance_eq_error_iff.mp hcall] at hadvance
    cases hadvance
  · rw [h.coherent.request_eq] at hroom
    refine ⟨?_, hroom.exceedsMemory⟩
    -- A pass is the only step of an image.
    obtain ⟨⟨executor, hbackend⟩, -⟩ := hroom
    rw [StartRequest.steps, hbackend] at hk
    exact Nat.lt_one_iff.mp hk

end Session

end GrammarArt
