import GrammarArt.Proofs.Session.Story

/-! # What a derivation tells

A source is built in one and the same way for every session, but what is built of it is told
only after two others have had their say: the request, which is looked at as a whole before
its source is, and the renderer, which is prepared for the tree.  If the size, the time and the
backend of the request are in order (`StartRequest.Presentable`), neither of them changes what
is told: the tree of the source, or why there is none (`derive_tells`).  The one thing that the
request and the source both look at is the depth of a derivation, and what is too deep for one
is too deep for the other (`Source.exists_build_eq_error`).

Whatever was asked of the session before, it is as it was in the beginning until it derives its
tree, but for the feed (`Ran.eq_of_not_derived`).
-/
namespace GrammarArt

namespace Source

/-- The source asks for a derivation of a greater depth than there is. -/
def TooDeep : Source → Prop
  | .grammar _ depth _ => Derivation.maxDepth < depth.toNat
  | .expression _ => False

/-- What is told of a source that cannot be built: that it is too deep, if it is, or else the
failure to build it. -/
def refusal (source : Source) (failure : Failure) : Failure :=
  match source with
  | .grammar _ depth _ =>
    if Derivation.maxDepth < depth.toNat then .invalid (.depth depth.toNat Derivation.maxDepth)
    else failure
  | .expression _ => failure

variable {source : Source}

theorem refusal_of_not_tooDeep (h : ¬ source.TooDeep) (failure : Failure) :
    source.refusal failure = failure := by
  cases source with
  | expression text => rfl
  | grammar text depth seed => exact if_neg h

/-- What is too deep to be asked for is too deep to be built. -/
theorem exists_build_eq_error (h : source.TooDeep) :
    ∃ failure, source.build = .error failure := by
  cases source with
  | expression text => exact h.elim
  | grammar text depth seed =>
    rw [build]
    cases Grammar.compile text with
    | error e => exact ⟨_, rfl⟩
    | ok g =>
      have hdeep : Derivation.maxDepth < depth.toNat := h
      have hderive : (g.derive g.start depth.toNat (Xoshiro.seed seed)).1 =
          .error (.depthLimit depth.toNat Derivation.maxDepth) := by
        unfold Grammar.derive
        rw [if_pos hdeep]
      simp only [hderive]
      exact ⟨_, rfl⟩

end Source

namespace StartRequest

/-- The size, the time and the backend of a request are in order, whatever its source is. -/
structure Presentable (request : StartRequest) : Prop where
  width_ne : request.width ≠ 0
  height_ne : request.height ≠ 0
  time_finite : request.time.isFinite = true
  size_lt : request.width.toNat * request.height.toNat * Frame.pixelBytes < UInt64.size
  backend_eq : request.backend = .interpreted ∨ request.backend = .compiled .cpu

/-- No object in memory has room for the memo of the image. -/
def LacksMemo (request : StartRequest) : Prop :=
  request.backend = .interpreted ∧
    Memory.limit ≤ request.width.toNat * request.height.toNat * Memo.slotBytes

variable {request : StartRequest} {tree : Tree} {failure : Failure}

namespace Presentable

/-- Only the depth of the source can be wrong. -/
theorem invalid?_eq (h : request.Presentable) :
    request.invalid? =
      match request.source with
      | .grammar _ depth _ =>
        if Derivation.maxDepth < depth.toNat then some (.depth depth.toNat Derivation.maxDepth)
        else none
      | .expression _ => none := by
  have htime : ¬ (!request.time.isFinite) = true := by
    rw [h.time_finite]
    decide
  refine (if_neg (not_or.mpr ⟨h.width_ne, h.height_ne⟩)).trans ((if_neg htime).trans ?_)
  cases request.source with
  | expression text => rfl
  | grammar text depth seed => rfl

theorem build_eq_ok (h : request.Presentable) (hbuild : request.source.build = .ok tree) :
    request.build = .ok tree := by
  have hshallow : ¬ request.source.TooDeep := by
    intro hdeep
    obtain ⟨failure, hfailure⟩ := Source.exists_build_eq_error hdeep
    rw [hbuild] at hfailure
    cases hfailure
  have hvalid : request.invalid? = none := by
    rw [h.invalid?_eq]
    split
    · rename_i hsource
      rw [hsource] at hshallow
      exact if_neg hshallow
    · rfl
  rw [build, hvalid]
  exact hbuild

theorem build_eq_error (h : request.Presentable)
    (hbuild : request.source.build = .error failure) :
    request.build = .error (request.source.refusal failure) := by
  rw [build, h.invalid?_eq]
  cases hsource : request.source with
  | expression text => rwa [hsource] at hbuild
  | grammar text depth seed =>
    rw [hsource] at hbuild
    by_cases hdeep : Derivation.maxDepth < depth.toNat
    · simp only [Source.refusal, if_pos hdeep]
    · simp only [Source.refusal, if_neg hdeep]
      exact hbuild

theorem renders (h : request.Presentable) (hbuild : request.source.build = .ok tree) :
    request.Renders tree where
  build_eq := h.build_eq_ok hbuild
  isAvailable := by
    rcases h.backend_eq with hbackend | hbackend
    · rw [hbackend]
      rfl
    · rw [hbackend]
      rfl
  size_lt := h.size_lt

end Presentable

end StartRequest

namespace Session

variable {request : StartRequest} {tree : Tree} {failure : Failure} {s : Session} {id : Nat}
  {past : List (Operation × Outcome)}

/-- A renderer cannot be prepared exactly if there is no room for its memo. -/
theorem exists_prepare_eq_error_iff (h : request.Renders tree) :
    (∃ e, prepare request tree = .error e) ↔ request.LacksMemo := by
  have hsize := h.sizeError?_eq_none
  unfold prepare
  cases hbackend : request.backend with
  | compiled executor =>
    have havailable := h.isAvailable
    rw [hbackend] at havailable
    have hfits : executor.isAvailable = true := havailable
    simp only [hfits, if_true, StartRequest.LacksMemo, hbackend]
    simp
  | interpreted =>
    rw [StartRequest.LacksMemo, and_iff_right hbackend]
    simp only [Refinement.start, hsize]
    by_cases hroom :
        request.width.toNat * request.height.toNat * Memo.slotBytes < Memory.limit
    · rw [Memory.reserve_eq_ok_iff.mpr hroom]
      refine iff_of_false ?_ (Nat.not_le.mpr hroom)
      rintro ⟨e, he⟩
      cases he
    · have hlimit := Nat.not_lt.mp hroom
      rw [Memory.reserve, if_pos hlimit]
      exact iff_of_true ⟨_, rfl⟩ hlimit

/-! ### Before the tree is derived -/

/-- An idle session without a picture keeps still, but for its feed, until it derives its
tree. -/
theorem perform_of_idle {op : Operation} {o : Outcome} (hop : op ≠ .derive)
    (hidle : s.state = .idle) (hpicture : s.picture = none) (h : s.perform op = .ok o) :
    ∃ feed, o.session = { s with feed := feed } := by
  cases op with
  | derive => exact absurd rfl hop
  | advance =>
    obtain ⟨event, s', hadvance, rfl⟩ := perform_advance_eq_ok_iff.mp h
    have hquiet : s.state ≠ .rendering := by
      rw [hidle]
      decide
    cases hadvance.symm.trans (advance_of_not_rendering hquiet)
    exact ⟨s.feed, rfl⟩
  | setVariables feed =>
    cases h
    refine ⟨feed, ?_⟩
    simp only [hpicture]
  | cancel =>
    cases h
    refine ⟨s.feed, ?_⟩
    have hquiet : ¬ (s.state = .building ∨ s.state = .rendering) := by
      rw [hidle]
      decide
    exact if_neg hquiet

/-- **Until it derives its tree, a session is as it was in the beginning**, but for its feed. -/
theorem Ran.eq_of_not_derived (h : Ran (new id request) past s)
    (hfirst : ∀ call ∈ past, call.1 ≠ .derive) :
    ∃ feed, s = { new id request with feed := feed } := by
  induction h with
  | start => exact ⟨request.feed, rfl⟩
  | call before hperform ih =>
    obtain ⟨hbefore, hlast⟩ := List.forall_mem_append.mp hfirst
    obtain ⟨feed, rfl⟩ := ih hbefore
    have hop := hlast _ (List.mem_singleton_self _)
    exact perform_of_idle (s := { new id request with feed := feed }) hop rfl rfl hperform

/-! ### The derivation -/

/-- **The first derivation tells what becomes of the source**, whatever was asked of the session
before it: the tree that is built from it, unless there is no room for the memo, or why there is
none. -/
theorem derive_tells (h : request.Presentable) (hran : Ran (new id request) past s)
    (hfirst : ∀ call ∈ past, call.1 ≠ .derive) :
    (∀ tree, request.source.build = .ok tree → ¬ request.LacksMemo →
      ∃ s', s.derive = .ok (.expression id tree.render tree.shader, s') ∧
        s'.state = .rendering ∧ s'.root = some tree) ∧
    (∀ tree, request.source.build = .ok tree → request.LacksMemo → ∃ e, s.derive = .error e) ∧
    (∀ failure, request.source.build = .error failure →
      ∃ s', s.derive = .ok (.failed id (.derive (request.source.refusal failure)), s') ∧
        s'.state = .failed ∧ s'.root = none) := by
  obtain ⟨feed, rfl⟩ := hran.eq_of_not_derived hfirst
  have hidle : ({ new id request with feed := feed } : Session).state = .idle := rfl
  refine ⟨fun tree hbuild hroom => ?_, fun tree hbuild hroom => ?_, fun failure hbuild => ?_⟩
  · have hrenders := h.renders hbuild
    rcases prepare_of_renders hrenders with ⟨renderer, hprepare⟩ | ⟨-, hprepare⟩
    · refine ⟨{ new id request with
        state := .rendering, picture := some ⟨tree, renderer⟩, feed := feed }, ?_, rfl, rfl⟩
      rw [derive, if_neg (not_not_intro hidle)]
      simp only [new, hrenders.build_eq, hprepare]
    · exact absurd ((exists_prepare_eq_error_iff hrenders).mp hprepare) hroom
  · have hrenders := h.renders hbuild
    obtain ⟨e, hprepare⟩ := (exists_prepare_eq_error_iff hrenders).mpr hroom
    refine ⟨e, ?_⟩
    rw [derive, if_neg (not_not_intro hidle)]
    simp only [new, hrenders.build_eq, hprepare]
  · refine ⟨{ new id request with state := .failed, feed := feed }, ?_, rfl, rfl⟩
    rw [derive, if_neg (not_not_intro hidle)]
    simp only [new, h.build_eq_error hbuild]
    rfl

end Session

end GrammarArt
