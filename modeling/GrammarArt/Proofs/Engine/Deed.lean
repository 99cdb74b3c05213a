import GrammarArt.Proofs.Engine.Order
import GrammarArt.Proofs.Session.Lifecycle

/-! # What a worker does

In one move a worker does one of six things (`Worker.Does`): it carries out the operation that
is due on its session, or breaks down in it; it sends an event; it takes a command for the next
step, or one for a new feed, which it carries out at once; or it leaves, because the caller has
let go of it.  These are exactly its moves (`step?_eq_some_iff`), so all that is proved about the
life of a worker is read off them.
-/
namespace GrammarArt

namespace Worker

/-- What a worker does in a move. -/
inductive Deed where
  /-- It carries out an operation on its session. -/
  | call (op : Session.Operation) (o : Session.Outcome)
  /-- It breaks down in an operation. -/
  | breakDown (op : Session.Operation)
  | send (event : Event)
  /-- It takes a command for the next step. -/
  | takeNext

/-- The operation that is due in a phase. -/
def Phase.operation? : Phase → Option Session.Operation
  | .deriveTree => some .derive
  | .render => some .advance
  | _ => none

theorem operation?_eq_some_iff {phase : Phase} {op : Session.Operation} :
    Phase.operation? phase = some op ↔
      phase = .deriveTree ∧ op = .derive ∨ phase = .render ∧ op = .advance := by
  cases phase with
  | _ => simp [Phase.operation?, eq_comm]

/-- The phase after an operation that was due: what came of it is sent. -/
def Phase.afterCall (phase : Phase) : Option Event → Phase
  | none => .serve
  | some event =>
    match phase with
    | .deriveTree => .sendTree event
    | _ => .sendStep event

/-- The phase after an event was sent. -/
def Phase.afterSend : Phase → Phase
  | .sendTree _ => .render
  | _ => .serve

/-- The moves of a worker. -/
inductive Does (w : Worker) : Deed → Worker → Prop where
  | call {op : Session.Operation} {o : Session.Outcome} (hop : Phase.operation? w.phase = some op)
    (hcall : w.session.perform op = .ok o) :
    Does w (.call op o)
      { w with session := o.session, phase := Phase.afterCall w.phase o.event }
  | breakDown {op : Session.Operation} {e : Exhausted} (hop : Phase.operation? w.phase = some op)
    (hcall : w.session.perform op = .error e) : Does w (.breakDown op) w.breakDown
  | send {event : Event} (hheld : w.held = true) (hsending : w.sending = some event)
    (hroom : w.events.length < w.capacity) :
    Does w (.send event)
      { w with phase := Phase.afterSend w.phase, events := w.events ++ [event] }
  | takeNext {commands : List Command} (hphase : w.phase = .serve)
    (hcommands : w.commands = .next :: commands) :
    Does w .takeNext { w with commands := commands, phase := .render }
  | setVariables {feed : Feed} {commands : List Command} {o : Session.Outcome}
    (hphase : w.phase = .serve) (hcommands : w.commands = .setVariables feed :: commands)
    (hcall : w.session.perform (.setVariables feed) = .ok o) :
    Does w (.call (.setVariables feed) o)
      { w with
        session := o.session
        phase := if o.rerender then .render else .serve
        commands := commands }
  | leave {o : Session.Outcome} (hheld : w.held = false)
    (hphase : w.sending ≠ none ∨ w.phase = .serve ∧ w.commands = [])
    (hcall : w.session.perform .cancel = .ok o) :
    Does w (.call .cancel o) { w with session := o.session, phase := .exited }

variable {w w' : Worker} {deed : Deed}

theorem exists_does_of_deriveTree (hphase : w.phase = .deriveTree) :
    ∃ deed, w.Does deed w.deriveTree := by
  have hop : Phase.operation? w.phase = some .derive := by
    rw [hphase]
    rfl
  unfold deriveTree
  cases hderive : w.session.derive with
  | error e => exact ⟨_, .breakDown hop (Session.perform_derive_eq_error_iff.mpr hderive)⟩
  | ok result =>
    have hdoes := Does.call hop (Session.perform_derive_eq_ok_iff.mpr ⟨_, _, hderive, rfl⟩)
    rw [hphase] at hdoes
    exact ⟨_, hdoes⟩

theorem exists_does_of_renderStep (hphase : w.phase = .render) :
    ∃ deed, w.Does deed w.renderStep := by
  have hop : Phase.operation? w.phase = some .advance := by
    rw [hphase]
    rfl
  unfold renderStep
  cases hadvance : w.session.advance with
  | error e => exact ⟨_, .breakDown hop (Session.perform_advance_eq_error_iff.mpr hadvance)⟩
  | ok result =>
    obtain ⟨event, session⟩ := result
    have hdoes := Does.call hop (Session.perform_advance_eq_ok_iff.mpr ⟨_, _, hadvance, rfl⟩)
    rw [hphase] at hdoes
    cases event with
    | none => exact ⟨_, hdoes⟩
    | some event => exact ⟨_, hdoes⟩

theorem perform_setVariables (w : Worker) (feed : Feed) :
    w.perform (.setVariables feed) =
      { w with
        session := (w.session.setVariables feed).2
        phase := if (w.session.setVariables feed).1 then .render else .serve } := by
  simp only [perform]
  cases w.session.setVariables feed with
  | mk rerender session =>
    cases rerender with
    | true => rfl
    | false => rfl

theorem exists_does_of_perform (hphase : w.phase = .serve) {command : Command}
    {commands : List Command} (hcommands : w.commands = command :: commands) :
    ∃ deed, w.Does deed ({ w with commands := commands }.perform command) := by
  cases command with
  | next => exact ⟨_, .takeNext hphase hcommands⟩
  | setVariables feed =>
    rw [perform_setVariables]
    exact ⟨_, .setVariables hphase hcommands (Session.perform_setVariables w.session feed)⟩

theorem exists_does_of_send? {event : Event} {after : Phase} (hsending : w.sending = some event)
    (hafter : Phase.afterSend w.phase = after) (h : w.send? event after = some w') :
    ∃ deed, w.Does deed w' := by
  subst hafter
  unfold send? at h
  split at h
  · rename_i hheld
    cases h
    refine ⟨_, .leave (by simpa using hheld) (.inl ?_) rfl⟩
    rw [hsending]
    exact Option.some_ne_none event
  · rename_i hheld
    split at h
    · rename_i hroom
      cases h
      exact ⟨_, .send (by simpa using hheld) hsending hroom⟩
    · cases h

/-- An event that is about to be sent goes to the end of the queue, or is lost. -/
theorem step?_of_sending {event : Event} (hsending : w.sending = some event) :
    w.step? = w.send? event (Phase.afterSend w.phase) := by
  unfold sending at hsending
  unfold step?
  split at hsending
  · rename_i hphase
    cases hsending
    rw [hphase]
    rfl
  · rename_i hphase
    cases hsending
    rw [hphase]
    rfl
  · cases hsending

/-- **A worker does something exactly when it moves.** -/
theorem step?_eq_some_iff : w.step? = some w' ↔ ∃ deed, w.Does deed w' := by
  constructor
  · intro h
    unfold step? at h
    split at h
    · rename_i hphase
      cases h
      exact exists_does_of_deriveTree hphase
    · rename_i event hphase
      exact exists_does_of_send? (by rw [sending, hphase]) (by rw [hphase]; rfl) h
    · rename_i hphase
      cases h
      exact exists_does_of_renderStep hphase
    · rename_i event hphase
      exact exists_does_of_send? (by rw [sending, hphase]) (by rw [hphase]; rfl) h
    · rename_i hphase
      split at h
      · rename_i command commands hcommands
        cases h
        exact exists_does_of_perform hphase hcommands
      · rename_i hcommands
        split at h
        · cases h
        · rename_i hheld
          cases h
          exact ⟨_, .leave (by simpa using hheld) (.inr ⟨hphase, hcommands⟩) rfl⟩
    · cases h
    · cases h
  · rintro ⟨deed, h⟩
    cases h with
    | call hop hcall =>
      unfold Phase.operation? at hop
      split at hop
      · rename_i hphase
        cases hop
        obtain ⟨event, session, hderive, rfl⟩ := Session.perform_derive_eq_ok_iff.mp hcall
        simp only [step?, hphase, deriveTree, hderive]
        rfl
      · rename_i hphase
        cases hop
        obtain ⟨event, session, hadvance, rfl⟩ := Session.perform_advance_eq_ok_iff.mp hcall
        simp only [step?, hphase, renderStep, hadvance]
        cases event with
        | none => rfl
        | some event => rfl
      · cases hop
    | breakDown hop hcall =>
      unfold Phase.operation? at hop
      split at hop
      · rename_i hphase
        cases hop
        simp only [step?, hphase, deriveTree, Session.perform_derive_eq_error_iff.mp hcall]
      · rename_i hphase
        cases hop
        simp only [step?, hphase, renderStep, Session.perform_advance_eq_error_iff.mp hcall]
      · cases hop
    | send hheld hsending hroom =>
      rw [step?_of_sending hsending, send?, if_neg (by simp [hheld]), if_pos hroom]
    | takeNext hphase hcommands =>
      simp only [step?, hphase, hcommands]
      rfl
    | setVariables hphase hcommands hcall =>
      rw [Session.perform_setVariables] at hcall
      cases hcall
      simp only [step?, hphase, hcommands, perform_setVariables]
    | leave hheld hphase hcall =>
      cases hcall
      rcases hphase with hsending | ⟨hphase, hcommands⟩
      · obtain ⟨event, hevent⟩ := Option.ne_none_iff_exists'.mp hsending
        rw [step?_of_sending hevent, send?, if_pos (by simp [hheld])]
        rfl
      · simp only [step?, hphase, hcommands]
        rw [if_neg (by simp [hheld]), exit, hcommands, hheld]

end Worker

end GrammarArt
