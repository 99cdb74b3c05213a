import GrammarArt.Proofs.Session.Move

/-! # The life of a session

Whatever is asked of a session and in whatever order, its life takes one course: the tree first,
then the steps of its image from the first to the last, and again from the first one when a new
feed asks for it, until the session is abandoned or fails; after that there is nothing more
(`lifecycle`).

A run is a list of calls with their outcomes (`Ran`).  What a session has behind it is recorded
in this list and not in the session, so the invariant (`Recorded`) compares the two: the tree
is there once it was told, and the steps behind the image are those counted since the image was
last begun (`progressAfter`).  Every move keeps it (`Recorded.move`).
-/
namespace GrammarArt

/-- Whether an event tells the tree. -/
def Event.isExpression : Event → Bool
  | expression _ _ _ => true
  | progress _ _ _ _ | failed _ _ => false

/-- Whether an event tells the tree or shows a step of its image. -/
def Event.isResult : Event → Bool
  | expression _ _ _ | progress _ _ _ _ => true
  | failed _ _ => false

namespace Session

/-- Whether the tree was told. -/
def Outcome.isExpression (o : Outcome) : Bool := o.event.any Event.isExpression

/-- Whether the tree was told or a step of its image shown. -/
def Outcome.isResult (o : Outcome) : Bool := o.event.any Event.isResult

theorem isResult_of_isExpression {o : Outcome} (h : o.isExpression = true) : o.isResult = true := by
  unfold Outcome.isExpression at h
  unfold Outcome.isResult
  cases hevent : o.event with
  | none =>
    rw [hevent] at h
    cases h
  | some event =>
    rw [hevent] at h
    cases event with
    | expression session canonical shader => rfl
    | progress session current total image => cases h
    | failed session error => cases h

/-- The calls of a run, each with what came of it, and the session after them. -/
inductive Ran (first : Session) : List (Operation × Outcome) → Session → Prop where
  | start : Ran first [] first
  | call {past : List (Operation × Outcome)} {s : Session} (before : Ran first past s)
    {op : Operation} {o : Outcome} (h : s.perform op = .ok o) :
    Ran first (past ++ [(op, o)]) o.session

/-- Whatever comes of operations in a row ends a run of them. -/
theorem ran_of_outcomes {first : Session} {ops : List Operation} {k : Nat} {o : Outcome}
    (ho : (first.outcomes ops)[k]? = some o) :
    ∃ past, Ran first past o.session ∧ past.map Prod.fst = ops.take (k + 1) := by
  have hstep : ∀ (done : List Operation) (s : Session) (op : Operation) (o : Outcome),
      (∃ past, Ran first past s ∧ past.map Prod.fst = done) → s.perform op = .ok o →
        (∃ past, Ran first past o.session ∧ past.map Prod.fst = done ++ [op]) ∧ True := by
    rintro done s op o ⟨past, hran, rfl⟩ hperform
    exact ⟨⟨_, hran.call hperform, List.map_append⟩, trivial⟩
  exact (outcomes_induction hstep [] ⟨[], .start, rfl⟩ ho).1

/-- The session was abandoned or has failed. -/
def Ended (s : Session) : Prop := s.state = .cancelled ∨ s.state = .failed

/-- The number of steps since the image was begun, after an outcome; `n` before it. -/
def Outcome.progress (n : Nat) (o : Outcome) : Nat :=
  if o.rerender then 0
  else match o.event with
    | some (.progress _ current _ _) => current
    | _ => n

/-- The number of the step that was shown last, or zero if none was shown since the image was
begun. -/
def progressAfter (past : List (Operation × Outcome)) : Nat :=
  past.foldl (fun n call => call.2.progress n) 0

theorem progressAfter_append (past : List (Operation × Outcome)) (op : Operation) (o : Outcome) :
    progressAfter (past ++ [(op, o)]) = o.progress (progressAfter past) := by
  rw [progressAfter, List.foldl_append]
  rfl

/-! ### What a move does to the tree -/

variable {s : Session} {request : StartRequest} {past : List (Operation × Outcome)}
  {op : Operation} {o : Outcome}

/-- Only the move that tells the tree changes it. -/
theorem Move.root_eq (h : Move s op o) (hnot : o.isExpression = false) :
    o.session.root = s.root := by
  cases h with
  | quiet op feed => rfl
  | failure op error picture hroot htree => exact hroot
  | expression tree renderer hidle hfresh => cases hnot
  | progress tree before after image hrendering hpicture howes hcompleted htotal =>
    rw [root, root, hpicture]
    rfl
  | rerender feed tree renderer hactive hpicture =>
    rw [root, root, hpicture]
    rfl
  | abandon hrendering => rfl

/-- A session that tells its tree has none before. -/
theorem Move.of_isExpression (hs : s.Standing) (h : Move s op o)
    (hexpression : o.isExpression = true) :
    op = .derive ∧ s.state = .idle ∧ s.root = none ∧ o.session.root ≠ none := by
  cases h with
  | expression tree renderer hidle hfresh =>
    refine ⟨rfl, hidle, ?_, nofun⟩
    rw [root, hs.idle hidle]
    rfl
  | _ => cases hexpression

theorem Move.keeps_root (hs : s.Standing) (h : Move s op o) {tree : Tree}
    (htree : s.root = some tree) : o.session.root = some tree := by
  cases hexpression : o.isExpression with
  | true =>
    obtain ⟨-, -, hnone, -⟩ := h.of_isExpression hs hexpression
    rw [hnone] at htree
    cases htree
  | false => rw [h.root_eq hexpression, htree]

/-- What is told or shown comes from a session that is at work, and leaves it with a tree. -/
theorem Move.of_isResult (h : Move s op o) (hresult : o.isResult = true) :
    (s.state = .idle ∨ s.state = .rendering) ∧ o.session.root ≠ none := by
  cases h with
  | expression tree renderer hidle hfresh => exact ⟨.inl hidle, nofun⟩
  | progress tree before after image hrendering hpicture howes hcompleted htotal =>
    exact ⟨.inr hrendering, nofun⟩
  | _ => cases hresult

theorem Ended.inactive (hs : s.Ended) :
    s.state ≠ .idle ∧ s.state ≠ .rendering ∧ s.state ≠ .done := by
  rcases hs with hstate | hstate
  · rw [hstate]
    decide
  · rw [hstate]
    decide

/-- **An abandoned or failed session tells and shows nothing**, and stays so. -/
theorem Move.ended (h : Move s op o) (hs : s.Ended) :
    o.session.Ended ∧ o.isResult = false := by
  obtain ⟨hidle, hrendering, hdone⟩ := hs.inactive
  have hnothing : o.isResult = false := by
    refine Bool.eq_false_iff.mpr fun hresult => ?_
    rcases (h.of_isResult hresult).1 with hstate | hstate
    · exact hidle hstate
    · exact hrendering hstate
  refine ⟨?_, hnothing⟩
  cases h with
  | quiet op feed => exact hs
  | failure op error picture hroot htree => exact .inr rfl
  | expression tree renderer hstate hfresh => exact absurd hstate hidle
  | progress tree before after image hstate hpicture howes hcompleted htotal =>
    exact absurd hstate hrendering
  | rerender feed tree renderer hstate hpicture =>
    rcases hstate with hstate | hstate
    · exact absurd hstate hrendering
    · exact absurd hstate hdone
  | abandon hstate => exact .inl rfl

/-! ### What is recorded of a run -/

/-- The calls of a run agree with the session after them. -/
structure Recorded (request : StartRequest) (past : List (Operation × Outcome)) (s : Session) :
    Prop where
  silent : s.root = none → ∀ call ∈ past, call.2.isResult = false
  told : s.root ≠ none → ∃ call ∈ past, call.2.isExpression = true
  totals : ∀ call ∈ past, ∀ session current total image,
    call.2.event = some (.progress session current total image) → total = request.steps
  completed : ∀ p, s.picture = some p → s.state = .rendering ∨ s.state = .done →
    p.renderer.completed = progressAfter past
  ended : ∀ call ∈ past, call.2.session.Ended → s.Ended
  derived : (∀ call ∈ past, call.1 ≠ .derive) → s.root = none

theorem recorded_new (id : Nat) (request : StartRequest) :
    Recorded request [] (new id request) where
  silent := fun _ => List.forall_mem_nil _
  told := fun hsome => absurd rfl hsome
  totals := List.forall_mem_nil _
  completed := by rintro p ⟨⟩
  ended := List.forall_mem_nil _
  derived := fun _ => rfl

/-- Nothing is counted before the tree is told. -/
theorem progressAfter_eq_zero (h : ∀ call ∈ past, call.2.isResult = false) :
    progressAfter past = 0 := by
  unfold progressAfter
  induction past with
  | nil => rfl
  | cons call past ih =>
    obtain ⟨hcall, hpast⟩ := List.forall_mem_cons.mp h
    have hzero : call.2.progress 0 = 0 := by
      unfold Outcome.progress
      split
      · rfl
      · split
        · rename_i hevent
          rw [Outcome.isResult, hevent] at hcall
          cases hcall
        · rfl
    rw [List.foldl_cons, hzero, ih hpast]

/-- The steps behind an image are counted by the moves. -/
theorem Move.completed (h : Move s op o) {n : Nat} (hidle : s.state = .idle → n = 0)
    (hn : ∀ p, s.picture = some p → s.state = .rendering ∨ s.state = .done →
      p.renderer.completed = n) :
    ∀ p, o.session.picture = some p → o.session.state = .rendering ∨ o.session.state = .done →
      p.renderer.completed = o.progress n := by
  cases h with
  | quiet op feed => exact hn
  | failure op error picture hroot htree => rintro p - (hstate | hstate) <;> cases hstate
  | expression tree renderer hstate hfresh =>
    rintro p ⟨⟩ -
    rw [hfresh, hidle hstate]
    rfl
  | progress tree before after image hrendering hpicture howes hcompleted htotal =>
    rintro p ⟨⟩ -
    rfl
  | rerender feed tree renderer hactive hpicture =>
    rintro p ⟨⟩ -
    exact Renderer.completed_restart renderer
  | abandon hrendering => rintro p - (hstate | hstate) <;> cases hstate

/-- **Every move keeps the record.** -/
theorem Recorded.move (h : Recorded request past s) (hs : s.Standing) (hmove : Move s op o)
    (hfits : ∀ p, o.session.picture = some p → p.renderer.total = request.steps) :
    Recorded request (past ++ [(op, o)]) o.session where
  silent := by
    intro hnone
    have hbefore : s.root = none := by
      cases hroot : s.root with
      | none => rfl
      | some tree =>
        rw [hmove.keeps_root hs hroot] at hnone
        cases hnone
    have hlast : o.isResult = false :=
      Bool.eq_false_iff.mpr fun hresult => (hmove.of_isResult hresult).2 hnone
    exact List.forall_mem_append.mpr ⟨h.silent hbefore, List.forall_mem_singleton.mpr hlast⟩
  told := by
    intro hsome
    -- The tree is told by this very call, or was there before it.
    cases hexpression : o.isExpression with
    | true => exact ⟨(op, o), List.mem_append_right _ List.mem_cons_self, hexpression⟩
    | false =>
      rw [hmove.root_eq hexpression] at hsome
      obtain ⟨call, hcall, htold⟩ := h.told hsome
      exact ⟨call, List.mem_append_left _ hcall, htold⟩
  totals := by
    refine List.forall_mem_append.mpr ⟨h.totals, List.forall_mem_singleton.mpr ?_⟩
    intro session current total image hevent
    cases hmove with
    | progress tree before after image hrendering hpicture howes hcompleted htotal =>
      cases hevent
      exact hfits _ rfl
    | _ => cases hevent
  completed := by
    rw [progressAfter_append]
    -- While the session is idle nothing was told, so nothing was counted.
    refine hmove.completed (fun hidle => progressAfter_eq_zero (h.silent ?_)) h.completed
    rw [root, hs.idle hidle]
    rfl
  ended := by
    refine List.forall_mem_append.mpr ⟨fun call hcall hended => ?_, ?_⟩
    · exact (hmove.ended (h.ended call hcall hended)).1
    · exact List.forall_mem_singleton.mpr fun hended => hended
  derived := by
    intro hnever
    obtain ⟨hbefore, hlast⟩ := List.forall_mem_append.mp hnever
    have hexpression : o.isExpression = false := Bool.eq_false_iff.mpr fun hexpression =>
      List.forall_mem_singleton.mp hlast (hmove.of_isExpression hs hexpression).1
    rw [hmove.root_eq hexpression, h.derived hbefore]

/-! ### The course of a life -/

/-- What advancing does, by the state that the session of a request is in. -/
structure Advances (request : StartRequest) (s : Session) : Prop where
  quiet : s.state ≠ .rendering → s.advance = .ok (none, s)
  event : s.state = .rendering → ¬ request.LacksRoom → ∃ event s', s.advance = .ok (some event, s')
  lacksRoom : s.state = .rendering → request.LacksRoom → ∃ e, s.advance = .error e
  has_tree : ∀ session s',
    s.advance ≠ .ok (some (.failed session (.render (.unavailable .noTree))), s')

/-- What comes of a call after those of the past. -/
structure Orderly (past : List (Operation × Outcome)) (s : Session) (op : Operation) (o : Outcome) :
    Prop where
  /-- The tree is told once, and before any step of its image is shown. -/
  expression : o.isExpression = true → ∀ call ∈ past, call.2.isResult = false
  progress : ∀ session current total image,
    o.event = some (.progress session current total image) →
      (∃ call ∈ past, call.2.isExpression = true) ∧ current = progressAfter past + 1 ∧
        (∀ call ∈ past, ∀ session' current' total' image',
          call.2.event = some (.progress session' current' total' image') → total = total') ∧
        (current = total ↔ o.session.state = .done)
  keeps_root : ∀ tree, s.root = some tree → o.session.root = some tree
  /-- A first derivation that fails leaves no tree. -/
  failure : op = .derive → (∀ call ∈ past, call.1 ≠ .derive) → o.isResult = false →
    o.session.root = none
  ended : ∀ call ∈ past, call.2.session.Ended → o.isResult = false

theorem Ran.coherent {id : Nat} (h : Ran (new id request) past s) :
    s.Coherent request (feedAfter request.feed (past.map Prod.fst)) := by
  induction h with
  | start => exact coherent_new id request
  | call before hperform ih =>
    rw [List.map_append]
    exact (ih.perform hperform).1

theorem Ran.standing {id : Nat} (h : Ran (new id request) past s) : s.Standing := by
  induction h with
  | start => exact standing_new id request
  | call before hperform ih => exact (move_of_perform ih before.coherent hperform).standing ih

theorem Ran.move {id : Nat} (h : Ran (new id request) past s) (hperform : s.perform op = .ok o) :
    Move s op o :=
  move_of_perform h.standing h.coherent hperform

theorem Ran.id_eq {id : Nat} (h : Ran (new id request) past s) : s.id = id := by
  induction h with
  | start => rfl
  | call before hperform ih => exact (before.move hperform).id_eq.trans ih

/-- The events of a run tell its session, and the states that it goes through. -/
theorem Ran.of_event {id : Nat} (h : Ran (new id request) past s)
    {call : Operation × Outcome} (hcall : call ∈ past) {event : Event}
    (hevent : call.2.event = some event) :
    event.session = id ∧ call.2.session.state = event.stateAfter := by
  induction h with
  | start => cases hcall
  | call before hperform ih =>
    rcases List.mem_append.mp hcall with hpast | hlast
    · exact ih hpast
    · obtain rfl := List.mem_singleton.mp hlast
      obtain ⟨hsession, hstate⟩ := (before.move hperform).of_event hevent
      exact ⟨hsession.trans before.id_eq, hstate⟩

theorem Ran.recorded {id : Nat} (h : Ran (new id request) past s) : Recorded request past s := by
  induction h with
  | start => exact recorded_new id request
  | call before hperform ih =>
    have hmove := move_of_perform before.standing before.coherent hperform
    refine ih.move before.standing hmove fun p hp => ?_
    exact ((before.call hperform).coherent.fits p hp).total_eq

theorem advances {feed : Feed} (hs : s.Standing) (hcoherent : s.Coherent request feed) :
    Advances request s where
  quiet := advance_of_not_rendering
  event := by
    intro hrendering hroom
    rw [← hcoherent.request_eq] at hroom
    rcases advance_of_rendering hs hcoherent hrendering with ⟨-, event, s', hok, -⟩ | ⟨hlacks, -⟩
    · exact ⟨event, s', hok⟩
    · exact absurd hlacks hroom
  lacksRoom := by
    intro hrendering hlacks
    rw [← hcoherent.request_eq] at hlacks
    rcases advance_of_rendering hs hcoherent hrendering with ⟨hroom, -⟩ | ⟨-, he⟩
    · exact absurd hlacks hroom
    · exact he
  has_tree := by
    intro session s' hadvance
    have hperform : s.perform .advance =
        .ok ⟨some (.failed session (.render (.unavailable .noTree))), false, s'⟩ := by
      rw [perform, hadvance]
      rfl
    have hmove := move_of_perform hs hcoherent hperform
    cases hmove with
    | failure op error picture hroot htree => exact htree rfl rfl

theorem Recorded.orderly (h : Recorded request past s) (hs : s.Standing) (hmove : Move s op o)
    (hrecorded : Recorded request (past ++ [(op, o)]) o.session) : Orderly past s op o where
  expression := by
    intro hexpression
    exact h.silent (hmove.of_isExpression hs hexpression).2.2.1
  progress := by
    intro session current total image hevent
    have hsteps : total = request.steps :=
      hrecorded.totals (op, o) (List.mem_append_right _ List.mem_cons_self) _ _ _ _ hevent
    cases hmove with
    | progress tree before after image hrendering hpicture howes hcompleted htotal =>
      cases hevent
      refine ⟨h.told ?_, ?_, ?_, ?_⟩
      · rw [root, hpicture]
        exact Option.some_ne_none _
      · rw [hcompleted, h.completed _ hpicture (.inl hrendering)]
      · intro call hcall session' current' total' image' hevent'
        rw [hsteps, h.totals call hcall _ _ _ _ hevent']
      · by_cases hlast : after.completed = after.total
        · simp only [hlast, if_true]
        · simp only [hlast, if_false, reduceCtorEq]
    | _ => cases hevent
  keeps_root := fun tree => hmove.keeps_root hs
  failure := by
    intro hop hnever hresult
    have hexpression : o.isExpression = false := Bool.eq_false_iff.mpr fun hexpression => by
      rw [isResult_of_isExpression hexpression] at hresult
      cases hresult
    rw [hmove.root_eq hexpression, h.derived hnever]
  ended := fun call hcall hended => (hmove.ended (h.ended call hcall hended)).2

/-- **The life of a session.**  Whatever was asked of it: it is not being built, it owes work on
its picture while it renders and none when it is done, and it advances while it renders and only
then, unless there is no room for its image; and whatever is asked next, the outcome is the one
that is due after those before it. -/
theorem lifecycle (id : Nat) (request : StartRequest) {past : List (Operation × Outcome)}
    {s : Session} (h : Ran (new id request) past s) :
    s.Standing ∧ Advances request s ∧
      ∀ op o, s.perform op = .ok o → Orderly past s op o := by
  refine ⟨h.standing, advances h.standing h.coherent, fun op o hperform => ?_⟩
  have hmove := move_of_perform h.standing h.coherent hperform
  exact h.recorded.orderly h.standing hmove (h.call hperform).recorded

/-- A session that is derived and rendered to the end, which is one step. -/
theorem lifecycle_single_step :
    ∃ (past : List (Operation × Outcome)) (s : Session),
      Ran (new 0 ⟨.expression "low", 1, 1, .interpreted, 0, .none⟩) past s ∧
        past.map Prod.fst = [.derive, .advance] ∧ s.state = .done ∧ s.Standing ∧
        s.advance = .ok (none, s) := by
  have h : (((new 0 ⟨.expression "low", 1, 1, .interpreted, 0, .none⟩).outcomes
      [.derive, .advance])[1]?.map fun o => o.session.state) = some .done := by
    decide +kernel
  obtain ⟨o, ho, hdone⟩ := Option.map_eq_some_iff.mp h
  obtain ⟨past, hran, hpast⟩ := ran_of_outcomes ho
  obtain ⟨hstanding, hadvances, -⟩ := lifecycle 0 _ hran
  refine ⟨past, o.session, hran, hpast, hdone, hstanding, hadvances.quiet ?_⟩
  rw [hdone]
  decide

/-- Not every session that renders has an event when it advances: here there is no room for the
image. -/
theorem exists_rendering_without_event :
    ¬ ∀ (id : Nat) (request : StartRequest) (past : List (Operation × Outcome)) (s : Session),
      Ran (new id request) past s → s.state = .rendering →
        ∃ event s', s.advance = .ok (some event, s') := by
  intro hall
  have h : (((new 0 ⟨.expression "x", 4294967295, 1073741824, .compiled .cpu, 0,
      .none⟩).outcomes [.derive])[0]?.map fun o => o.session.state) = some .rendering := by
    decide +kernel
  obtain ⟨o, ho, hrendering⟩ := Option.map_eq_some_iff.mp h
  obtain ⟨past, hran, -⟩ := ran_of_outcomes ho
  obtain ⟨event, s', hevent⟩ := hall 0 _ _ _ hran hrendering
  have hadvances := advances hran.standing hran.coherent
  obtain ⟨e, he⟩ := hadvances.lacksRoom hrendering ⟨⟨.cpu, rfl⟩, by decide, by decide⟩
  rw [hevent] at he
  cases he

end Session

end GrammarArt
