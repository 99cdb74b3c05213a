import GrammarArt.Proofs.Session.Lifecycle

/-! # Whose fault a failure is

A failure of a session is told apart twice: by its phase, that is, whether the tree could not be
derived or could not be rendered, and by its kind, that is, whether the failure lies with the
request or with the program that serves it.  A caller can go by either of the two as long as
they agree (`SessionError.Agrees`).

There are five ways to fail (`Fails`), and every failure of every run is one of them
(`fails_of_perform`).  In four of them phase and kind agree.  In the fifth they do not: a size
with more bytes than can be counted passes for valid until the tree is there, so what is the
fault of the request is told as a failure to render.  Hence phase and kind agree in every run of
a request exactly if it does not fail late in this way (`failures_agree_iff`), and there are
requests that do (`exists_late_failure`).
-/
namespace GrammarArt

namespace SessionError

/-- Whether it was the tree that could not be derived. -/
def isDerive : SessionError → Bool
  | derive _ => true
  | render _ => false

/-- The tree could not be derived exactly if the failure lies with the request. -/
def Agrees (error : SessionError) : Prop := error.isDerive = error.inner.isRequestFault

end SessionError

/-- Whether there is something to render a tree with. -/
def Backend.isAvailable : Backend → Bool
  | .interpreted => true
  | .compiled executor => executor.isAvailable

/-- The tree can be built and there is something to render it with, but the bytes of the frame
cannot be counted. -/
def StartRequest.FailsLate (request : StartRequest) : Prop :=
  (∃ tree, request.build = .ok tree) ∧ request.backend.isAvailable = true ∧
    UInt64.size ≤ request.width.toNat * request.height.toNat * Frame.pixelBytes

/-! ### Requests that cannot be built -/

theorem Source.isRequestFault_of_build {source : Source} {failure : Failure}
    (h : source.build = .error failure) : failure.isRequestFault = true := by
  cases source with
  | expression text =>
    rw [build] at h
    cases hparse : Expression.parse text with
    | error e => rw [hparse] at h; cases h; rfl
    | ok tree => rw [hparse] at h; cases h
  | grammar text depth seed =>
    rw [build] at h
    split at h
    · cases h
      rfl
    · split at h
      · cases h
        rfl
      · cases h

namespace StartRequest

variable {request : StartRequest} {tree : Tree}

/-- A request that cannot be built is at fault. -/
theorem isRequestFault_of_build {failure : Failure} (h : request.build = .error failure) :
    failure.isRequestFault = true := by
  unfold build at h
  split at h
  · cases h
    rfl
  · exact Source.isRequestFault_of_build h

/-- A request that can be built has no side of length zero. -/
theorem pos_of_build (h : request.build = .ok tree) :
    0 < request.width.toNat ∧ 0 < request.height.toNat := by
  have hvalid : request.invalid? = none := by
    unfold build at h
    split at h
    · cases h
    · assumption
  unfold invalid? at hvalid
  split at hvalid
  · cases hvalid
  · rename_i hsize
    obtain ⟨hwidth, hheight⟩ := not_or.mp hsize
    exact ⟨UInt32.pos_iff_ne_zero.mpr hwidth, UInt32.pos_iff_ne_zero.mpr hheight⟩

theorem sizeError?_of_build (h : request.build = .ok tree)
    (hsize : UInt64.size ≤ request.width.toNat * request.height.toNat * Frame.pixelBytes) :
    Frame.sizeError? request.width.toNat request.height.toNat =
      some (.overflow request.width.toNat request.height.toNat) := by
  obtain ⟨hwidth, hheight⟩ := pos_of_build h
  rw [Frame.sizeError?, if_neg (by omega), if_pos hsize]

theorem size_le_of_build (h : request.build = .ok tree) {e : Frame.SizeError}
    (hsize : Frame.sizeError? request.width.toNat request.height.toNat = some e) :
    UInt64.size ≤ request.width.toNat * request.height.toNat * Frame.pixelBytes := by
  obtain ⟨hwidth, hheight⟩ := pos_of_build h
  rw [Frame.sizeError?, if_neg (by omega)] at hsize
  split at hsize
  · assumption
  · cases hsize

end StartRequest

/-! ### The failures of a session -/

namespace Session

variable {request : StartRequest} {s : Session} {op : Operation} {o : Outcome}

/-- The ways in which a session of a request fails. -/
inductive Fails (request : StartRequest) : SessionError → Prop where
  | derivedTwice (id : Nat) : Fails request (.derive (.invalid (.notIdle id)))
  | build {failure : Failure} (h : request.build = .error failure) :
    Fails request (.derive failure)
  | executor : Fails request (.render (.unavailable .executor))
  | noTree : Fails request (.render (.unavailable .noTree))
  | size {e : Frame.SizeError} (hbuild : ∃ tree, request.build = .ok tree)
    (havailable : request.backend.isAvailable = true)
    (h : Frame.sizeError? request.width.toNat request.height.toNat = some e) :
    Fails request (.render (.invalid (.size e)))

/-! ### Every failure is one of these -/

/-- What there is to render was built from the request, and there is something to render it
with. -/
structure Serves (request : StartRequest) (s : Session) : Prop where
  request_eq : s.request = request
  built : s.root ≠ none →
    (∃ tree, request.build = .ok tree) ∧ request.backend.isAvailable = true

theorem isAvailable_of_prepare {tree : Tree} {renderer : Renderer}
    (h : prepare request tree = .ok (.ok renderer)) : request.backend.isAvailable = true := by
  unfold prepare at h
  split at h
  · rename_i hbackend
    rw [hbackend]
    rfl
  · rename_i executor hbackend
    rw [hbackend]
    split at h
    · assumption
    · cases h

theorem fails_of_prepare {tree : Tree} {failure : Failure} (hbuild : request.build = .ok tree)
    (h : prepare request tree = .ok (.error failure)) : Fails request (.render failure) := by
  unfold prepare at h
  split at h
  · rename_i hbackend
    split at h
    · cases h
    · rename_i e hstart
      cases h
      refine .size ⟨tree, hbuild⟩ (by rw [hbackend]; rfl) ?_
      unfold Refinement.start at hstart
      split at hstart
      · cases hstart
        assumption
      · split at hstart <;> cases hstart
    · cases h
  · split at h
    · cases h
    · cases h
      exact .executor

/-- What comes of a derivation: a tree that was built and can be rendered, or a failure. -/
theorem of_derive (hs : s.Serves request) {event : Event} {s' : Session}
    (h : s.derive = .ok (event, s')) :
    (event.isExpression = true →
      (∃ tree, request.build = .ok tree) ∧ request.backend.isAvailable = true) ∧
      ∀ session error, event = .failed session error → Fails request error := by
  obtain rfl := hs.request_eq
  unfold Session.derive at h
  split at h
  · cases h
    exact ⟨nofun, by rintro _ _ ⟨⟩; exact .derivedTwice _⟩
  · split at h
    · rename_i failure hbuild
      cases h
      exact ⟨nofun, by rintro _ _ ⟨⟩; exact .build hbuild⟩
    · rename_i tree hbuild
      split at h
      · cases h
      · rename_i failure hprepare
        cases h
        exact ⟨nofun, by rintro _ _ ⟨⟩; exact fails_of_prepare hbuild hprepare⟩
      · rename_i renderer hprepare
        cases h
        exact ⟨fun _ => ⟨⟨tree, hbuild⟩, isAvailable_of_prepare hprepare⟩, nofun⟩

theorem fails_of_pass (hs : s.Serves request) (hroot : s.root ≠ none) {tree : Tree}
    {program : Program} {session : Nat} {error : SessionError} {s' : Session}
    (h : s.pass tree program = .ok (.failed session error, s')) : Fails request error := by
  obtain rfl := hs.request_eq
  obtain ⟨hbuild, havailable⟩ := hs.built hroot
  simp only [Session.pass] at h
  split at h
  · cases h
  · rename_i e himage
    cases h
    refine .size hbuild havailable ?_
    unfold Program.image at himage
    split at himage
    · cases himage
      assumption
    · split at himage <;> cases himage
  · cases h

theorem fails_of_advance (hs : s.Serves request) {session : Nat} {error : SessionError}
    {s' : Session} (h : s.advance = .ok (some (.failed session error), s')) :
    Fails request error := by
  unfold Session.advance at h
  split at h
  · cases h
  · split at h
    · cases h
      exact .noTree
    · rename_i tree refinement hpicture
      unfold Session.refine at h
      split at h <;> cases h
    · cases h
    · rename_i tree program hpicture
      have hroot : s.root ≠ none := by
        rw [root, hpicture]
        exact Option.some_ne_none tree
      split at h
      · cases h
      · rename_i event s'' hpass
        cases h
        exact fails_of_pass hs hroot hpass

/-- **A failure comes about in one of the five ways.** -/
theorem fails_of_perform (hs : s.Serves request) (h : s.perform op = .ok o) {session : Nat}
    {error : SessionError} (hevent : o.event = some (.failed session error)) :
    Fails request error := by
  cases op with
  | derive =>
    obtain ⟨event, s', hderive, rfl⟩ := perform_derive_eq_ok_iff.mp h
    exact (of_derive hs hderive).2 session error (Option.some.inj hevent)
  | advance =>
    obtain ⟨event, s', hadvance, rfl⟩ := perform_advance_eq_ok_iff.mp h
    cases (hevent : event = _)
    exact fails_of_advance hs hadvance
  | setVariables feed | cancel =>
    cases h
    cases hevent

/-- Only a derivation that tells a tree brings one. -/
theorem Serves.perform {feed : Feed} (hs : s.Serves request) (hstanding : s.Standing)
    (hcoherent : s.Coherent request feed) (h : s.perform op = .ok o)
    (hrequest : o.session.request = request) : o.session.Serves request := by
  refine ⟨hrequest, fun hroot => ?_⟩
  have hmove := move_of_perform hstanding hcoherent h
  cases hexpression : o.isExpression with
  | false =>
    rw [hmove.root_eq hexpression] at hroot
    exact hs.built hroot
  | true =>
    obtain ⟨rfl, -⟩ := hmove.of_isExpression hstanding hexpression
    obtain ⟨event, s', hderive, rfl⟩ := perform_derive_eq_ok_iff.mp h
    exact (of_derive hs hderive).1 hexpression

theorem Ran.serves {id : Nat} {past : List (Operation × Outcome)}
    (h : Ran (new id request) past s) : s.Serves request := by
  induction h with
  | start => exact ⟨rfl, fun hroot => absurd rfl hroot⟩
  | call before hperform ih =>
    exact ih.perform before.standing before.coherent hperform
      (before.call hperform).coherent.request_eq

/-! ### Phase and kind -/

theorem Fails.agrees {error : SessionError} (h : Fails request error)
    (hlate : ¬ request.FailsLate) : error.Agrees := by
  cases h with
  | derivedTwice id => rfl
  | build h => exact (StartRequest.isRequestFault_of_build h).symm
  | executor => rfl
  | noTree => rfl
  | size hbuild havailable h =>
    -- The sides are not zero, since a tree was built, so the size is one that overflows.
    obtain ⟨tree, hbuild⟩ := hbuild
    exact absurd ⟨⟨tree, hbuild⟩, havailable, StartRequest.size_le_of_build hbuild h⟩ hlate

/-- A pass over a frame that cannot have its size fails. -/
theorem perform_advance_of_sizeError {tree : Tree} {program : Program} {e : Frame.SizeError}
    (hrendering : s.state = .rendering) (hpicture : s.picture = some ⟨tree, .compiled program true⟩)
    (hsize : Frame.sizeError? s.request.width.toNat s.request.height.toNat = some e) :
    s.perform .advance = .ok ⟨some (.failed s.id (.render (.invalid (.size e)))), false,
      { s with state := .failed, picture := some ⟨tree, .compiled program false⟩ }⟩ := by
  rw [perform, advance_of_pending hrendering hpicture]
  simp only [pass, Program.image, hsize]
  rfl

/-- A size that overflows is told as a failure to render, as soon as it matters. -/
theorem exists_late_of_failsLate (id : Nat) (hlate : request.FailsLate) :
    ∃ past s, Ran (new id request) past s ∧ ∃ call ∈ past, call.2.event =
      some (.failed id (.render (.invalid (.size
        (.overflow request.width.toNat request.height.toNat))))) := by
  obtain ⟨⟨tree, hbuild⟩, havailable, hsize⟩ := hlate
  have hoverflow := StartRequest.sizeError?_of_build hbuild hsize
  cases hbackend : request.backend with
  | interpreted =>
    -- The memory of a refinement is sized at once, so the derivation itself fails.
    have hprepare : prepare request tree = .ok (.error (.invalid (.size
        (.overflow request.width.toNat request.height.toNat)))) := by
      simp only [prepare, hbackend, Refinement.start, hoverflow]
    have hderive := perform_derive_of_prepare_error (s := new id request) rfl hbuild hprepare
    exact ⟨_, _, .call .start hderive, _, List.mem_singleton_self _, rfl⟩
  | compiled executor =>
    -- A program is prepared without a size, so the tree is told and the first pass fails.
    rw [hbackend] at havailable
    have hprepare : prepare request tree = .ok (.ok (.compiled tree.lower true)) := by
      simp only [prepare, hbackend]
      exact if_pos havailable
    have hderive := perform_derive_of_prepare (s := new id request) rfl hbuild hprepare
    have hadvance := perform_advance_of_sizeError (s := { new id request with
      state := .rendering, picture := some ⟨tree, .compiled tree.lower true⟩ }) rfl rfl hoverflow
    exact ⟨_, _, .call (.call .start hderive) hadvance, _,
      List.mem_append_right _ (List.mem_singleton_self _), rfl⟩

/-- **Phase and kind of a failure agree**, whatever was asked of the session, exactly if the
request does not fail late. -/
theorem failures_agree_iff (id : Nat) (request : StartRequest) :
    (∀ past s, Ran (new id request) past s → ∀ call ∈ past, ∀ session error,
      call.2.event = some (.failed session error) → error.Agrees) ↔ ¬ request.FailsLate := by
  constructor
  · intro hagrees hlate
    obtain ⟨past, s, hran, call, hcall, hevent⟩ := exists_late_of_failsLate id hlate
    cases hagrees past s hran call hcall _ _ hevent
  · intro hlate past s hran call hcall session error hevent
    induction hran with
    | start => cases hcall
    | call before hperform ih =>
      rcases List.mem_append.mp hcall with hcall | hcall
      · exact ih hcall
      · cases List.mem_singleton.mp hcall
        exact (fails_of_perform before.serves hperform hevent).agrees hlate

/-- Phase and kind do not agree in every run: here the bytes of the frame are just too many to be
counted. -/
theorem exists_late_failure :
    ¬ ∀ (id : Nat) (request : StartRequest) (past : List (Operation × Outcome)) (s : Session),
      Ran (new id request) past s → ∀ call ∈ past, ∀ session error,
        call.2.event = some (.failed session error) → error.Agrees := by
  intro hagrees
  have hbuild : ∃ tree, StartRequest.build
      ⟨.expression "x", 2147483648, 2147483648, .interpreted, 0, .none⟩ = .ok tree := by
    have h : (match StartRequest.build
        ⟨.expression "x", 2147483648, 2147483648, .interpreted, 0, .none⟩ with
        | .ok _ => true
        | .error _ => false) = true := by
      decide +kernel
    split at h
    · exact ⟨_, by assumption⟩
    · cases h
  obtain ⟨past, s, hran, call, hcall, hevent⟩ :=
    exists_late_of_failsLate 0 ⟨hbuild, rfl, by decide⟩
  cases hagrees 0 _ past s hran call hcall _ _ hevent

end Session

end GrammarArt
