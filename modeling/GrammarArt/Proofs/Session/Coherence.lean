import GrammarArt.Proofs.Program.Image
import GrammarArt.Proofs.Refinement.Step
import GrammarArt.Proofs.Session.Run
import GrammarArt.Proofs.Tree.Feed

/-! # Every image shows the feed in force

The memo of a session does not know for which feed it was filled, a new feed can come
between any two operations, and it is forgotten only for trees that read variables.  Still
no image shows a pixel of an older feed (`progress_shows_feed_in_force`).

The invariant (`Coherent`) says that the renderer is right for the current feed *as long as
the session can still use it*: in the states `rendering` and `done`, from which alone a new
feed leads back to `rendering`.  In the other states a new feed leaves the memo as it is,
whatever the tree, and what it holds then is never shown.
-/
namespace GrammarArt

/-- The distance of the pixels that a step takes: every pixel is taken in a single pass. -/
def Backend.stride : Backend → (current total : Nat) → Nat
  | .interpreted, current, total => 2 ^ (total - current)
  | .compiled _, _, _ => 1

namespace Renderer

/-- The renderer was made for the tree of a request. -/
def Fits (request : StartRequest) (tree : Tree) : Renderer → Prop
  | .interpreted r =>
    request.backend = .interpreted ∧ r.width = request.width.toNat ∧
      r.height = request.height.toNat ∧ r.time = request.time
  | .compiled program _ =>
    (∃ executor, request.backend = .compiled executor) ∧ program = tree.lower

/-- What the renderer remembers is right for a feed. -/
def RightFor (tree : Tree) (feed : Feed) : Renderer → Prop
  | .interpreted r => r.memo.RightFor r.width (r.paint tree feed)
  | .compiled _ _ => True

variable {request : StartRequest} {tree : Tree} {renderer : Renderer}

theorem Fits.restart (h : renderer.Fits request tree) :
    (Session.Renderer.restart renderer).Fits request tree := by
  cases renderer with
  | interpreted r => exact h
  | compiled program pending => exact h

theorem rightFor_restart (renderer : Renderer) (tree : Tree) (feed : Feed) :
    (Session.Renderer.restart renderer).RightFor tree feed := by
  cases renderer with
  | interpreted r => exact Refinement.rightFor_rewind r _
  | compiled program pending => trivial

/-- What is remembered of a tree without variables is right for every feed. -/
theorem RightFor.of_not_readsVariables {feed : Feed} (h : renderer.RightFor tree feed)
    (ht : tree.readsVariables = false) (feed' : Feed) : renderer.RightFor tree feed' := by
  cases renderer with
  | interpreted r =>
    refine Memo.RightFor.congr h fun col row => ?_
    rw [Refinement.paint, tree.eval_eq_of_not_readsVariables ht _ feed feed']
    rfl
  | compiled program pending => trivial

end Renderer

namespace Session

variable {request : StartRequest} {feed : Feed} {s : Session}

/-- The session serves a request under a feed: its tree is the one that the request asks
for, and in the states in which its renderer can still be used, that is right for the
feed. -/
structure Coherent (request : StartRequest) (feed : Feed) (s : Session) : Prop where
  request_eq : s.request = request
  feed_eq : s.feed = feed
  build_eq : ∀ p, s.picture = some p → request.build = .ok p.tree
  fits : ∀ p, s.picture = some p → p.renderer.Fits request p.tree
  rightFor : ∀ p, s.picture = some p → s.state = .rendering ∨ s.state = .done →
    p.renderer.RightFor p.tree feed

theorem coherent_new (id : Nat) (request : StartRequest) :
    (new id request).Coherent request request.feed where
  request_eq := rfl
  feed_eq := rfl
  build_eq := nofun
  fits := nofun
  rightFor := nofun

/-- A session that is told to stop stays coherent. -/
theorem Coherent.stop (h : s.Coherent request feed) {state : SessionState}
    (hstate : state ≠ .rendering ∧ state ≠ .done) :
    { s with state := state }.Coherent request feed where
  request_eq := h.request_eq
  feed_eq := h.feed_eq
  build_eq := h.build_eq
  fits := h.fits
  rightFor := fun _ _ hs => absurd hs (not_or.mpr hstate)

theorem Coherent.cancel (h : s.Coherent request feed) : s.cancel.Coherent request feed := by
  unfold Session.cancel
  split
  · exact h.stop (by decide)
  · exact h

/-- A session with a new picture is coherent if the picture is right for it. -/
theorem Coherent.withPicture (h : s.Coherent request feed) {tree : Tree} {renderer : Renderer}
    (hbuild : request.build = .ok tree) (hfits : renderer.Fits request tree)
    (hright : renderer.RightFor tree feed) (state : SessionState) :
    { s with state := state, picture := some ⟨tree, renderer⟩ }.Coherent request feed where
  request_eq := h.request_eq
  feed_eq := h.feed_eq
  build_eq := by rintro p hp; cases hp; exact hbuild
  fits := by rintro p hp; cases hp; exact hfits
  rightFor := by rintro p hp _; cases hp; exact hright

/-! ### Deriving -/

theorem prepare_eq_ok {tree : Tree} {renderer : Renderer}
    (h : prepare request tree = .ok (.ok renderer)) :
    renderer.Fits request tree ∧ ∀ feed, renderer.RightFor tree feed := by
  unfold prepare at h
  split at h
  · rename_i hbackend
    split at h
    · cases h
    · cases h
    · rename_i r hstart
      cases h
      rw [Refinement.start_eq_ok hstart]
      exact ⟨⟨hbackend, rfl, rfl, rfl⟩, fun _ => Memo.rightFor_empty _ _ _⟩
  · rename_i executor hbackend
    split at h
    · cases h
      exact ⟨⟨⟨executor, hbackend⟩, rfl⟩, fun _ => trivial⟩
    · cases h

theorem Coherent.derive (h : s.Coherent request feed) {event : Event} {s' : Session}
    (hderive : s.derive = .ok (event, s')) :
    s'.Coherent request feed ∧
      ∀ session current total image, event ≠ .progress session current total image := by
  obtain rfl := h.request_eq
  unfold Session.derive at hderive
  split at hderive
  · cases hderive
    exact ⟨h.stop (by decide), nofun⟩
  · split at hderive
    · cases hderive
      exact ⟨h.stop (by decide), nofun⟩
    · rename_i tree hbuild
      split at hderive
      · cases hderive
      · cases hderive
        exact ⟨h.stop (by decide), nofun⟩
      · rename_i renderer hprepare
        cases hderive
        obtain ⟨hfits, hright⟩ := prepare_eq_ok hprepare
        exact ⟨h.withPicture hbuild hfits (hright feed) _, nofun⟩

/-! ### Advancing -/

/-- A step of a request under a feed: how far it is, and an image of the request's tree. -/
def ShowsStep (request : StartRequest) (feed : Feed) (current total : Nat) (image : Frame)
    (s : Session) : Prop :=
  ∃ tree, request.build = .ok tree ∧ s.root = some tree ∧ 1 ≤ current ∧ current ≤ total ∧
    image.Shows tree request.width.toNat request.height.toNat request.time feed
      (request.backend.stride current total)

theorem Coherent.refine (h : s.Coherent request feed) {tree : Tree} {r : Refinement}
    (hp : s.picture = some ⟨tree, .interpreted r⟩) (hs : s.state = .rendering) :
    (s.refine tree r).2.Coherent request feed ∧
      ∀ session current total image,
        (s.refine tree r).1 = some (.progress session current total image) →
          ShowsStep request feed current total image (s.refine tree r).2 := by
  have hmemo : r.memo.RightFor r.width (r.paint tree s.feed) := by
    rw [h.feed_eq]
    exact h.rightFor _ hp (Or.inl hs)
  obtain ⟨hbackend, hwidth, hheight, htime⟩ := h.fits _ hp
  have hbuild := h.build_eq _ hp
  unfold Session.refine
  rcases Nat.lt_or_ge r.done r.total with hlt | hle
  · obtain ⟨memo, hstep, hright⟩ := Refinement.step_eq_of_lt hlt hmemo
    rw [h.feed_eq] at hright
    rw [hstep]
    have hfits : (Renderer.interpreted { r with done := r.done + 1, memo := memo }).Fits
        request tree := ⟨hbackend, hwidth, hheight, htime⟩
    refine ⟨h.withPicture hbuild hfits hright _, ?_⟩
    intro session current total image hevent
    cases hevent
    refine ⟨tree, hbuild, rfl, Nat.le_add_left 1 _, hlt, ?_⟩
    rw [hbackend, ← hwidth, ← hheight, ← htime, ← h.feed_eq]
    exact r.sampled_shows tree s.feed _
  · rw [Refinement.step_eq_of_le hle]
    exact ⟨h, nofun⟩

theorem Coherent.pass (h : s.Coherent request feed) {tree : Tree} {program : Program}
    {pending : Bool} (hp : s.picture = some ⟨tree, .compiled program pending⟩) {event : Event}
    {s' : Session} (hpass : s.pass tree program = .ok (event, s')) :
    s'.Coherent request feed ∧
      ∀ session current total image, event = .progress session current total image →
        ShowsStep request feed current total image s' := by
  obtain ⟨⟨executor, hbackend⟩, hprogram⟩ := h.fits _ hp
  have hbuild := h.build_eq _ hp
  have hfits : (Renderer.compiled program false).Fits request tree :=
    ⟨⟨executor, hbackend⟩, hprogram⟩
  have hafter := h.withPicture hbuild hfits trivial
  simp only [Session.pass] at hpass
  split at hpass
  · cases hpass
  · cases hpass
    exact ⟨hafter .failed, nofun⟩
  · rename_i image himage
    cases hpass
    refine ⟨hafter .done, fun session current total image' hevent => ?_⟩
    cases hevent
    refine ⟨tree, hbuild, rfl, Nat.le_refl 1, Nat.le_refl 1, ?_⟩
    rw [Program.image_eq_ok himage, hprogram, h.request_eq, h.feed_eq, hbackend]
    exact tree.raster_lower_shows _ _ _ feed

theorem Coherent.advance (h : s.Coherent request feed) {event : Option Event} {s' : Session}
    (hadvance : s.advance = .ok (event, s')) :
    s'.Coherent request feed ∧
      ∀ session current total image, event = some (.progress session current total image) →
        ShowsStep request feed current total image s' := by
  unfold Session.advance at hadvance
  split at hadvance
  · cases hadvance
    exact ⟨h, nofun⟩
  · rename_i hstate
    rw [ne_eq, Decidable.not_not] at hstate
    split at hadvance
    · cases hadvance
      exact ⟨h.stop (by decide), nofun⟩
    · rename_i tree r hp
      have hstep := h.refine hp hstate
      rw [Except.ok.inj hadvance] at hstep
      exact hstep
    · cases hadvance
      exact ⟨h, nofun⟩
    · rename_i tree program hp
      split at hadvance
      · cases hadvance
      · rename_i event' s'' hpass
        cases hadvance
        obtain ⟨hcoherent, hshows⟩ := h.pass hp hpass
        exact ⟨hcoherent, fun session current total image hevent =>
          hshows session current total image (Option.some.inj hevent)⟩

/-! ### A new feed -/

theorem Coherent.setVariables (h : s.Coherent request feed) (feed' : Feed) :
    (s.setVariables feed').2.Coherent request feed' := by
  simp only [Session.setVariables]
  split
  · rename_i hp
    have hnone : ∀ p, s.picture ≠ some p := fun p hp' => by simp [hp] at hp'
    exact ⟨h.request_eq, rfl, fun p hp' => absurd hp' (hnone p),
      fun p hp' => absurd hp' (hnone p), fun p hp' => absurd hp' (hnone p)⟩
  · rename_i tree renderer hp
    have hbuild := h.build_eq _ hp
    have hfits := h.fits _ hp
    have hpicture : ∀ p, s.picture = some p → p = ⟨tree, renderer⟩ := fun p hp' =>
      Option.some.inj (hp'.symm.trans hp)
    split
    · refine ⟨h.request_eq, rfl, ?_, ?_, ?_⟩
      · rintro p ⟨rfl⟩
        exact hbuild
      · rintro p ⟨rfl⟩
        exact hfits.restart
      · rintro p ⟨rfl⟩ _
        exact Renderer.rightFor_restart renderer tree feed'
    · rename_i hskip
      refine ⟨h.request_eq, rfl, h.build_eq, h.fits, fun p hp' hs => ?_⟩
      -- The renderer is still in use, so it was the tree that made a restart needless.
      rw [hpicture p hp']
      have hreads : tree.readsVariables = false :=
        Bool.eq_false_iff.mpr fun hreads => hskip ⟨hreads, hs⟩
      exact (h.rightFor _ hp hs).of_not_readsVariables hreads feed'

/-! ### Runs -/

theorem Coherent.perform {past : List Operation} {op : Operation} {o : Outcome}
    (h : s.Coherent request (feedAfter request.feed past)) (hperform : s.perform op = .ok o) :
    o.session.Coherent request (feedAfter request.feed (past ++ [op])) ∧
      ∀ session current total image, o.event = some (.progress session current total image) →
        ShowsStep request (feedAfter request.feed past) current total image o.session := by
  rw [feedAfter_append]
  cases op with
  | derive =>
    obtain ⟨event, s', hderive, rfl⟩ := perform_derive_eq_ok_iff.mp hperform
    obtain ⟨hcoherent, hnot⟩ := h.derive hderive
    exact ⟨hcoherent, fun session current total image hevent =>
      absurd (Option.some.inj hevent) (hnot session current total image)⟩
  | advance =>
    obtain ⟨event, s', hadvance, rfl⟩ := perform_advance_eq_ok_iff.mp hperform
    exact h.advance hadvance
  | setVariables feed' =>
    cases hperform
    exact ⟨h.setVariables feed', fun _ _ _ _ hevent => absurd hevent (by simp)⟩
  | cancel =>
    cases hperform
    exact ⟨h.cancel, fun _ _ _ _ hevent => absurd hevent (by simp)⟩

/-- **Every image shows the feed in force.**  Whatever is asked of a session and in whatever
order, the image of each step is that of the request's tree, painted afresh under the feed
that was set last, or under the request's if none was set. -/
theorem progress_shows_feed_in_force (id : Nat) (request : StartRequest)
    (ops : List Operation) (k : Nat) {o : Outcome}
    (ho : ((new id request).outcomes ops)[k]? = some o) {session current total : Nat}
    {image : Frame} (hevent : o.event = some (.progress session current total image)) :
    ∃ tree, request.build = .ok tree ∧ o.session.root = some tree ∧
      1 ≤ current ∧ current ≤ total ∧
      image.Shows tree request.width.toNat request.height.toNat request.time
        (feedAfter request.feed (ops.take k)) (request.backend.stride current total) := by
  have h := outcomes_induction
    (P := fun past s => s.Coherent request (feedAfter request.feed past))
    (Q := fun past o => ∀ session current total image,
      o.event = some (.progress session current total image) →
        ShowsStep request (feedAfter request.feed past) current total image o.session)
    (fun _ _ _ _ => Coherent.perform) [] (coherent_new id request) ho
  exact h.2 session current total image hevent

/-- A feed that comes between the derivation of `low` and its only step is the one shown. -/
theorem progress_shows_feed_set_before_step :
    ∃ (request : StartRequest) (o : Outcome) (session current total : Nat) (image : Frame),
      ((new 0 request).outcomes [.derive, .setVariables (Feed.none.set .low 1), .advance])[2]? =
        some o ∧
      o.event = some (.progress session current total image) ∧
      ∃ tree, request.build = .ok tree ∧ o.session.root = some tree ∧
        1 ≤ current ∧ current ≤ total ∧
        image.Shows tree request.width.toNat request.height.toNat request.time
          (Feed.none.set .low 1) (request.backend.stride current total) := by
  have h : (((new 0 ⟨.expression "low", 1, 1, .interpreted, 0, .none⟩).outcomes
      [.derive, .setVariables (Feed.none.set .low 1), .advance])[2]?.bind
        Outcome.event).map Event.isFinalProgress = some true := by
    decide +kernel
  obtain ⟨event, hsome, hfinal⟩ := Option.map_eq_some_iff.mp h
  obtain ⟨o, ho, hevent⟩ := Option.bind_eq_some_iff.mp hsome
  match event with
  | .progress session current total image =>
    exact ⟨_, o, session, current, total, image, ho, hevent,
      progress_shows_feed_in_force 0 _ _ 2 ho hevent⟩

end Session

end GrammarArt
