import GrammarArt.Proofs.Engine.Life
import GrammarArt.Proofs.Session.Story

/-! # A worker that is asked for one step after another

A worker comes to the first two events of the story by itself, the tree and the first step, and
to one more event for each time that it is asked for the next step.  How far it is in the story
can therefore be told from how often it was asked, and how many of the commands are still in its
queue (`Worker.InPace`).  It is kept in pace by whatever it does (`Worker.Paced.does`), as long as
it is asked for no more steps than there are.
-/
namespace GrammarArt

/-- Events that come first, and the event that comes next. -/
theorem isPrefix_concat {α : Type} {as bs : List α} {b : α} (h : as <+: bs)
    (hb : bs[as.length]? = some b) : as ++ [b] <+: bs := by
  obtain ⟨rest, rfl⟩ := h
  rw [List.getElem?_append_right le_rfl, Nat.sub_self] at hb
  obtain ⟨rest, rfl⟩ := List.head?_eq_some_iff.mp (List.head?_eq_getElem?.trans hb)
  exact ⟨rest, by simp⟩

namespace Worker

variable {w w' : Worker} {request : StartRequest} {tree : Tree} {id asked : Nat}
  {seen : List Event}

/-- How far a worker is that has made `count` events and was asked `asked` times. -/
def InPace (request : StartRequest) (tree : Tree) (id count asked : Nat) (w : Worker) : Prop :=
  match w.phase with
  | .deriveTree => w.session = .new id request ∧ count = 0 ∧ asked = w.commands.length
  | .sendTree _ =>
    w.session.IsAt request tree id 0 ∧ count = 1 ∧ asked = w.commands.length
  | .render =>
    ∃ k, w.session.IsAt request tree id k ∧ count = k + 1 ∧ asked = k + w.commands.length
  | .sendStep _ | .serve =>
    ∃ k, w.session.IsAt request tree id (k + 1) ∧ count = k + 2 ∧ asked = k + w.commands.length
  | .exited => False
  | .broken => request.ExceedsMemory ∧ count ≤ 1

/-- The events that a worker has come to: those that were received, those in its queue, and the
one that it is about to send. -/
def toldSoFar (seen : List Event) (w : Worker) : List Event := seen ++ w.events ++ w.sending.toList

/-- The worker tells the story of a request, and is in pace. -/
structure Paced (request : StartRequest) (tree : Tree) (id : Nat) (seen : List Event)
    (asked : Nat) (w : Worker) : Prop where
  held : w.held = true
  capacity_pos : 0 < w.capacity
  eq_next : ∀ command ∈ w.commands, command = .next
  isPrefix : w.toldSoFar seen <+: request.story tree id
  inPace : w.InPace request tree id (w.toldSoFar seen).length asked

theorem paced_new {capacity : Nat} (h : 0 < capacity) (request : StartRequest) (tree : Tree)
    (id : Nat) : (new capacity (.new id request)).Paced request tree id [] 0 where
  held := rfl
  capacity_pos := h
  eq_next := List.forall_mem_nil _
  isPrefix := List.nil_prefix
  inPace := ⟨rfl, rfl, rfl⟩

/-- What comes of an operation that was due is told next. -/
theorem toldSoFar_afterCall {op : Session.Operation} (hop : Phase.operation? w.phase = some op)
    (o : Session.Outcome) (seen : List Event) :
    { w with session := o.session, phase := Phase.afterCall w.phase o.event }.toldSoFar seen =
      w.toldSoFar seen ++ o.event.toList := by
  rw [toldSoFar, toldSoFar, sending_afterCall hop, sending_of_operation? hop, Option.toList_none,
    List.append_nil]

/-- **A worker comes to the next event of the story.** -/
theorem Paced.call (h : w.Paced request tree id seen asked) (hrenders : request.Renders tree)
    (hasked : asked < request.steps) {op : Session.Operation} {o : Session.Outcome}
    (hop : Phase.operation? w.phase = some op) (hcall : w.session.perform op = .ok o) :
    { w with session := o.session, phase := Phase.afterCall w.phase o.event }.Paced request tree
      id seen asked := by
  have hpace := h.inPace
  unfold InPace at hpace
  rcases operation?_eq_some_iff.mp hop with ⟨hphase, rfl⟩ | ⟨hphase, rfl⟩
  · simp only [hphase] at hpace
    obtain ⟨hsession, hcount, hasked'⟩ := hpace
    rw [hsession] at hcall
    obtain ⟨hevent, hat⟩ := Session.of_perform_derive hrenders hcall
    refine ⟨h.held, h.capacity_pos, h.eq_next, ?_, ?_⟩
    · rw [toldSoFar_afterCall hop, hevent]
      exact isPrefix_concat h.isPrefix
        (by rw [hcount]; exact StartRequest.story_zero request tree id)
    · rw [toldSoFar_afterCall hop, hevent, List.length_append, hcount]
      simp only [InPace, hphase, Phase.afterCall]
      exact ⟨hat, rfl, hasked'⟩
  · simp only [hphase] at hpace
    obtain ⟨k, hat, hcount, hasked'⟩ := hpace
    -- It was asked for no more steps than there are, so this one is still to come.
    have hk : k < request.steps := by omega
    obtain ⟨hevent, hat'⟩ := hat.of_perform_advance hrenders hk hcall
    refine ⟨h.held, h.capacity_pos, h.eq_next, ?_, ?_⟩
    · rw [toldSoFar_afterCall hop, hevent]
      exact isPrefix_concat h.isPrefix (by rw [hcount]; exact StartRequest.story_succ hk tree id)
    · rw [toldSoFar_afterCall hop, hevent, List.length_append, hcount]
      simp only [InPace, hphase, Phase.afterCall]
      exact ⟨k, hat', rfl, hasked'⟩

/-- A worker breaks down only before the first step, and only for lack of room. -/
theorem Paced.breakDown (h : w.Paced request tree id seen asked)
    (hrenders : request.Renders tree) (hasked : asked < request.steps) {op : Session.Operation}
    {e : Exhausted} (hop : Phase.operation? w.phase = some op)
    (hcall : w.session.perform op = .error e) :
    w.breakDown.Paced request tree id seen asked := by
  have htold : w.breakDown.toldSoFar seen = w.toldSoFar seen := by
    rw [toldSoFar, toldSoFar, sending_of_operation? hop]
    rfl
  refine ⟨h.held, h.capacity_pos, h.eq_next, htold ▸ h.isPrefix, ?_⟩
  have hpace := h.inPace
  unfold InPace at hpace
  rw [htold]
  rcases operation?_eq_some_iff.mp hop with ⟨hphase, rfl⟩ | ⟨hphase, rfl⟩
  · simp only [hphase] at hpace
    obtain ⟨hsession, hcount, -⟩ := hpace
    rw [hsession] at hcall
    exact ⟨Session.exceedsMemory_of_derive hrenders hcall, hcount.le.trans (Nat.zero_le 1)⟩
  · simp only [hphase] at hpace
    obtain ⟨k, hat, hcount, hasked'⟩ := hpace
    have hk : k < request.steps := by omega
    obtain ⟨rfl, hexceeds⟩ := hat.exceedsMemory_of_advance hk hcall
    exact ⟨hexceeds, hcount.le⟩

theorem Paced.send (h : w.Paced request tree id seen asked) {event : Event}
    (hsending : w.sending = some event) :
    { w with phase := Phase.afterSend w.phase, events := w.events ++ [event] }.Paced request tree
      id seen asked := by
  have htold : { w with
      phase := Phase.afterSend w.phase, events := w.events ++ [event] }.toldSoFar seen =
        w.toldSoFar seen := by
    rw [toldSoFar, toldSoFar, sending_afterSend hsending, hsending, Option.toList_none,
      Option.toList_some, List.append_nil, List.append_assoc]
  refine ⟨h.held, h.capacity_pos, h.eq_next, htold ▸ h.isPrefix, ?_⟩
  have hpace := h.inPace
  unfold InPace at hpace
  rw [htold]
  unfold sending at hsending
  split at hsending
  · rename_i hphase
    simp only [hphase] at hpace
    obtain ⟨hat, hcount, hasked'⟩ := hpace
    simp only [InPace, hphase, Phase.afterSend]
    exact ⟨0, hat, hcount, hasked'.trans (Nat.zero_add _).symm⟩
  · rename_i hphase
    simp only [hphase] at hpace
    simp only [InPace, hphase, Phase.afterSend]
    exact hpace
  · cases hsending

theorem Paced.takeNext (h : w.Paced request tree id seen asked) (hphase : w.phase = .serve)
    {commands : List Command} (hcommands : w.commands = .next :: commands) :
    { w with commands := commands, phase := .render }.Paced request tree id seen asked := by
  have htold : { w with commands := commands, phase := .render }.toldSoFar seen =
      w.toldSoFar seen := by
    rw [toldSoFar, toldSoFar, sending, sending, hphase]
  refine ⟨h.held, h.capacity_pos, fun command hmem => ?_, htold ▸ h.isPrefix, ?_⟩
  · exact h.eq_next command (hcommands ▸ List.mem_cons_of_mem _ hmem)
  · have hpace := h.inPace
    simp only [InPace, hphase, hcommands, List.length_cons] at hpace
    obtain ⟨k, hat, hcount, hasked'⟩ := hpace
    rw [htold]
    refine ⟨k + 1, hat, hcount, ?_⟩
    show asked = k + 1 + commands.length
    omega

theorem Paced.queue (h : w.Paced request tree id seen asked) (hphase : w.phase = .serve) :
    (w.queue .next).Paced request tree id seen (asked + 1) where
  held := h.held
  capacity_pos := h.capacity_pos
  eq_next := List.forall_mem_append.mpr ⟨h.eq_next, List.forall_mem_singleton.mpr rfl⟩
  isPrefix := h.isPrefix
  inPace := by
    have hpace := h.inPace
    simp only [InPace, hphase] at hpace
    obtain ⟨k, hat, hcount, hasked⟩ := hpace
    have hcommands : asked + 1 = k + (w.commands ++ [Command.next]).length := by
      rw [List.length_append, hasked]
      rfl
    have hserve : (w.queue .next).phase = .serve := hphase
    simp only [InPace, hserve]
    exact ⟨k, hat, hcount, hcommands⟩

/-- The event that is received is the next one of the story. -/
theorem Paced.receive (h : w.Paced request tree id seen asked) {event : Event}
    {events : List Event} (hevents : w.events = event :: events) :
    { w with events := events }.Paced request tree id (seen ++ [event]) asked ∧
      (request.story tree id)[seen.length]? = some event := by
  have htold : { w with events := events }.toldSoFar (seen ++ [event]) = w.toldSoFar seen := by
    rw [toldSoFar, toldSoFar, hevents, List.append_cons seen event events]
    rfl
  refine ⟨⟨h.held, h.capacity_pos, h.eq_next, htold ▸ h.isPrefix, ?_⟩, ?_⟩
  · rw [htold]
    exact h.inPace
  · obtain ⟨rest, hrest⟩ := h.isPrefix
    rw [← hrest, toldSoFar, hevents, List.append_assoc, List.append_assoc,
      List.getElem?_append_right le_rfl, Nat.sub_self]
    rfl

/-! ### How far a worker is -/

theorem length_toldSoFar (seen : List Event) (w : Worker) : (w.toldSoFar seen).length =
    seen.length + w.events.length + w.sending.toList.length := by
  rw [toldSoFar, List.length_append, List.length_append]

/-- A worker all of whose answers were received waits for a command. -/
theorem Paced.of_answered (h : w.Paced request tree id seen asked)
    (hseen : seen.length = asked + 2) : w.phase = .serve ∧ w.commands = [] := by
  have hpace := h.inPace
  have hlength := length_toldSoFar seen w
  unfold InPace at hpace
  -- In any other phase fewer than `asked + 2` events can have been received.
  cases hphase : w.phase with
  | serve =>
    simp only [hphase] at hpace
    obtain ⟨k, -, hcount, hasked⟩ := hpace
    exact ⟨rfl, List.length_eq_zero_iff.mp (by omega)⟩
  | deriveTree | sendTree event | broken =>
    simp only [hphase] at hpace
    omega
  | render =>
    simp only [hphase] at hpace
    obtain ⟨k, -, hcount, hasked⟩ := hpace
    omega
  | sendStep event =>
    simp only [hphase] at hpace
    obtain ⟨k, -, hcount, hasked⟩ := hpace
    simp only [sending, hphase, Option.toList_some, List.length_singleton] at hlength
    omega
  | exited =>
    simp only [hphase] at hpace

/-- A worker does not wait for a command as long as an answer to one was not received. -/
theorem Paced.not_waiting (h : w.Paced request tree id seen asked)
    (hseen : seen.length ≤ asked + 1) (hphase : w.phase = .serve) (hcommands : w.commands = []) :
    w.events ≠ [] := by
  intro hevents
  -- With both queues empty all that was asked for was made, and all that was made received.
  have hpace := h.inPace
  simp only [InPace, hphase, hcommands] at hpace
  obtain ⟨k, -, hcount, hasked⟩ := hpace
  simp only [length_toldSoFar, hevents, sending, hphase, List.length_nil,
    Option.toList_none] at hcount hasked
  omega

theorem Paced.not_exited (h : w.Paced request tree id seen asked) : w.phase ≠ .exited := by
  intro hphase
  have hpace := h.inPace
  simp only [InPace, hphase] at hpace

theorem Paced.exceedsMemory (h : w.Paced request tree id seen asked)
    (hphase : w.phase = .broken) : request.ExceedsMemory := by
  have hpace := h.inPace
  simp only [InPace, hphase] at hpace
  exact hpace.1

/-- A worker that cannot move has an event for the caller, or it waits for a command, or it has
broken down. -/
theorem Paced.of_step?_eq_none (h : w.Paced request tree id seen asked) (hstep : w.step? = none) :
    w.events ≠ [] ∨ w.phase = .serve ∧ w.commands = [] ∨ w.phase = .broken := by
  have hsend : ∀ event after, w.send? event after = none → w.events ≠ [] := by
    intro event after hsend hevents
    rw [send?, if_neg (by simp [h.held]), if_pos (by rw [hevents]; exact h.capacity_pos)] at hsend
    cases hsend
  unfold step? at hstep
  split at hstep
  · cases hstep
  · exact .inl (hsend _ _ hstep)
  · cases hstep
  · exact .inl (hsend _ _ hstep)
  · rename_i hphase
    split at hstep
    · cases hstep
    · rename_i hcommands
      exact .inr (.inl ⟨hphase, hcommands⟩)
  · rename_i hphase
    exact absurd hphase h.not_exited
  · rename_i hphase
    exact .inr (.inr hphase)

/-- **A worker stays in pace** whatever it does. -/
theorem Paced.does (h : w.Paced request tree id seen asked) (hrenders : request.Renders tree)
    (hasked : asked < request.steps) {deed : Deed} (hdoes : w.Does deed w') :
    w'.Paced request tree id seen asked := by
  cases hdoes with
  | call hop hcall => exact h.call hrenders hasked hop hcall
  | breakDown hop hcall => exact h.breakDown hrenders hasked hop hcall
  | send hheld hsending hroom => exact h.send hsending
  | takeNext hphase hcommands => exact h.takeNext hphase hcommands
  | setVariables hphase hcommands hcall =>
    cases h.eq_next _ (hcommands ▸ List.mem_cons_self)
  | leave hheld hphase hcall =>
    rw [h.held] at hheld
    cases hheld

end Worker

end GrammarArt
