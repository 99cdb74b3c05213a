import GrammarArt.Proofs.Derivation.Canonical
import GrammarArt.Proofs.Session.Coherence

/-! # The canonical text replays a session

A session that derived its tree from a grammar tells the canonical text of the tree.  A second
session that is given this text in place of the grammar does the same: whatever is asked of
both, they produce the same events and go through the same states (`outcomes_replay`).  They
differ in their identifiers and in the source of their requests (`relabel`), and nothing else
that a session does depends on these once both sources build the same tree.
-/
namespace GrammarArt

/-- The failure as another session has it. -/
def Failure.relabel (id : Nat) : Failure → Failure
  | invalid (.notIdle _) => invalid (.notIdle id)
  | failure => failure

/-- The error as another session has it. -/
def SessionError.relabel (id : Nat) : SessionError → SessionError
  | derive failure => derive (failure.relabel id)
  | render failure => render (failure.relabel id)

/-- The event as another session has it. -/
def Event.relabel (id : Nat) : Event → Event
  | expression _ canonical shader => expression id canonical shader
  | progress _ current total image => progress id current total image
  | failed _ error => failed id (error.relabel id)

namespace Session

/-- The session with another identifier and another source of its tree. -/
def relabel (id : Nat) (source : Source) (s : Session) : Session :=
  { s with id := id, request := { s.request with source := source } }

/-- The outcome as another session has it. -/
def Outcome.relabel (id : Nat) (source : Source) (o : Outcome) : Outcome :=
  ⟨o.event.map (Event.relabel id), o.rerender, o.session.relabel id source⟩

/-! ### Operations do not look at the source -/

variable {id : Nat} {source : Source} {s : Session} {tree : Tree}

theorem relabel_of_prepare {request : StartRequest} {failure : Failure}
    (h : prepare request tree = .ok (.error failure)) : failure.relabel id = failure := by
  unfold prepare at h
  split at h
  · split at h
    · cases h
    · cases h
      rfl
    · cases h
  · split at h
    · cases h
    · cases h
      rfl

theorem derive_relabel (hbuild : s.request.build = .ok tree)
    (hbuild' : (s.relabel id source).request.build = .ok tree) :
    (s.relabel id source).derive =
      s.derive.map fun (event, s') => (event.relabel id, s'.relabel id source) := by
  unfold derive
  by_cases hstate : s.state = .idle
  · have hidle : (s.relabel id source).state = .idle := hstate
    have hprepare : prepare (s.relabel id source).request tree = prepare s.request tree := rfl
    rw [if_neg (not_not.mpr hstate), if_neg (not_not.mpr hidle), hbuild, hbuild']
    simp only [hprepare]
    cases hresult : prepare s.request tree with
    | error e => rfl
    | ok prepared =>
      cases prepared with
      | error failure =>
        simp only [Except.map, fail, Event.relabel, SessionError.relabel,
          relabel_of_prepare hresult]
        rfl
      | ok renderer => rfl
  · have hbusy : (s.relabel id source).state ≠ .idle := hstate
    rw [if_pos hstate, if_pos hbusy]
    rfl

theorem refine_relabel (refinement : Refinement) :
    (s.relabel id source).refine tree refinement =
      ((s.refine tree refinement).1.map (Event.relabel id),
        (s.refine tree refinement).2.relabel id source) := by
  unfold refine
  have hfeed : (s.relabel id source).feed = s.feed := rfl
  rw [hfeed]
  split
  · rfl
  · rfl

theorem pass_relabel (program : Program) : (s.relabel id source).pass tree program =
    (s.pass tree program).map fun (event, s') => (event.relabel id, s'.relabel id source) := by
  have himage : program.image (s.relabel id source).request.width.toNat
      (s.relabel id source).request.height.toNat (s.relabel id source).request.time
      (s.relabel id source).feed =
    program.image s.request.width.toNat s.request.height.toNat s.request.time s.feed := rfl
  unfold pass
  simp only [himage]
  cases program.image s.request.width.toNat s.request.height.toNat s.request.time s.feed with
  | error e => rfl
  | ok result =>
    cases result with
    | error e => rfl
    | ok image => rfl

theorem advance_relabel : (s.relabel id source).advance =
    s.advance.map fun (event, s') => (event.map (Event.relabel id), s'.relabel id source) := by
  have hpicture : (s.relabel id source).picture = s.picture := rfl
  unfold advance
  by_cases hstate : s.state = .rendering
  · have hrendering : (s.relabel id source).state = .rendering := hstate
    rw [if_neg (not_not.mpr hstate), if_neg (not_not.mpr hrendering), hpicture]
    cases s.picture with
    | none => rfl
    | some picture =>
      obtain ⟨tree, renderer⟩ := picture
      cases renderer with
      | interpreted refinement => exact congrArg Except.ok (refine_relabel refinement)
      | compiled program pending =>
        cases pending with
        | false => rfl
        | true =>
          simp only [pass_relabel]
          cases s.pass tree program with
          | error e => rfl
          | ok result => rfl
  · have hother : (s.relabel id source).state ≠ .rendering := hstate
    rw [if_pos hstate, if_pos hother]
    rfl

theorem setVariables_relabel (feed : Feed) : (s.relabel id source).setVariables feed =
    ((s.setVariables feed).1, (s.setVariables feed).2.relabel id source) := by
  have hpicture : (s.relabel id source).picture = s.picture := rfl
  have hstate : (s.relabel id source).state = s.state := rfl
  unfold setVariables
  simp only [hpicture, hstate]
  cases s.picture with
  | none => rfl
  | some picture =>
    simp only
    split
    · rfl
    · rfl

theorem cancel_relabel : (s.relabel id source).cancel = s.cancel.relabel id source := by
  have hstate : (s.relabel id source).state = s.state := rfl
  unfold cancel
  rw [hstate]
  split
  · rfl
  · rfl

/-- **An operation does the same in a session with another source**, if both sources build the
same tree. -/
theorem perform_relabel (hbuild : s.request.build = .ok tree)
    (hbuild' : (s.relabel id source).request.build = .ok tree) (op : Operation) :
    (s.relabel id source).perform op = (s.perform op).map (Outcome.relabel id source) := by
  cases op with
  | derive =>
    simp only [perform, derive_relabel hbuild hbuild']
    cases s.derive with
    | error e => rfl
    | ok result => rfl
  | advance =>
    simp only [perform, advance_relabel]
    cases s.advance with
    | error e => rfl
    | ok result => rfl
  | setVariables feed =>
    simp only [perform, setVariables_relabel]
    rfl
  | cancel =>
    simp only [perform, cancel_relabel]
    rfl

/-- A run does the same in a session with another source, if both build the same tree.  That
the request stays the same is part of what a run keeps. -/
theorem outcomes_relabel {request : StartRequest} (hbuild : request.build = .ok tree)
    (hbuild' : { request with source := source }.build = .ok tree) {past : List Operation}
    (h : s.Coherent request (feedAfter request.feed past)) (ops : List Operation) :
    (s.relabel id source).outcomes ops = (s.outcomes ops).map (Outcome.relabel id source) := by
  induction ops generalizing s past with
  | nil => rfl
  | cons op ops ih =>
    have hs : s.request.build = .ok tree := h.request_eq ▸ hbuild
    have hs' : (s.relabel id source).request.build = .ok tree := by
      show StartRequest.build { s.request with source := source } = _
      rw [h.request_eq, hbuild']
    rw [outcomes, outcomes, perform_relabel hs hs']
    cases ho : s.perform op with
    | error e => rfl
    | ok o => exact congrArg _ (ih (h.perform ho).1)

end Session

/-! ### The canonical text builds the same tree -/

theorem StartRequest.invalid?_expression {request : StartRequest} (h : request.invalid? = none)
    (text : String) : { request with source := .expression text }.invalid? = none := by
  unfold invalid? at h ⊢
  split at h
  · cases h
  · rename_i hsize
    rw [if_neg hsize]
    split at h
    · cases h
    · rename_i htime
      rw [if_neg htime]

/-- A grammar and the canonical text of the tree that is derived from it build the same tree. -/
theorem StartRequest.build_canonical {request : StartRequest} {text : String}
    {depth seed : UInt32} {tree : Tree} (hsource : request.source = .grammar text depth seed)
    (h : request.build = .ok tree) :
    { request with source := .expression tree.render }.build = .ok tree := by
  unfold build at h
  split at h
  · cases h
  · rename_i hvalid
    rw [hsource, Source.build] at h
    split at h
    · cases h
    · rename_i g hcompile
      split at h
      · cases h
      · rename_i d hderive
        cases h
        have hparse := Grammar.parse_render_root hcompile (Prod.ext hderive rfl)
        unfold build
        rw [invalid?_expression hvalid, Source.build, hparse]
        rfl

namespace Session

theorem build_of_derive {request : StartRequest} {id session : Nat} {canonical shader : String}
    {s : Session} (h : (new id request).derive = .ok (.expression session canonical shader, s)) :
    ∃ tree, request.build = .ok tree ∧ canonical = tree.render := by
  unfold derive at h
  split at h
  · cases h
  · split at h
    · cases h
    · rename_i tree hbuild
      split at h
      · cases h
      · cases h
      · cases h
        exact ⟨tree, hbuild, rfl⟩

/-- **The canonical text replays a session**: given to a second session in place of the
grammar, it leads to the same events and the same states, whatever is asked of both. -/
theorem outcomes_replay {request : StartRequest} {text : String} {depth seed : UInt32}
    (hsource : request.source = .grammar text depth seed) {id session : Nat}
    {canonical shader : String} {s : Session}
    (h : (new id request).derive = .ok (.expression session canonical shader, s)) (id' : Nat)
    (ops : List Operation) :
    (new id' { request with source := .expression canonical }).outcomes ops =
      ((new id request).outcomes ops).map (Outcome.relabel id' (.expression canonical)) := by
  obtain ⟨tree, hbuild, rfl⟩ := build_of_derive h
  have hbuild' := StartRequest.build_canonical hsource hbuild
  have hfirst : (new id request).Coherent request (feedAfter request.feed []) :=
    coherent_new id request
  exact outcomes_relabel hbuild hbuild' hfirst ops

/-- A node whose parameter was drawn, rendered and asked for once more. -/
theorem outcomes_replay_bw :
    ∃ (request : StartRequest) (session : Nat) (canonical shader : String) (s : Session),
      request.source = .grammar "S :: bw:1" 3 7 ∧
      (new 0 request).derive = .ok (.expression session canonical shader, s) ∧
      (new 1 { request with source := .expression canonical }).outcomes
          [.derive, .advance, .derive] =
        ((new 0 request).outcomes [.derive, .advance, .derive]).map
          (Outcome.relabel 1 (.expression canonical)) := by
  have h : (match (new 0 ⟨.grammar "S :: bw:1" 3 7, 1, 1, .interpreted, 0, .none⟩).derive with
      | .ok (.expression _ _ _, _) => true
      | _ => false) = true := by decide
  split at h
  · rename_i session canonical shader s hderive
    exact ⟨_, session, canonical, shader, s, rfl, hderive, outcomes_replay rfl hderive 1 _⟩
  · cases h

end Session

end GrammarArt
