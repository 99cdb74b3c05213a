import GrammarArt.Session

/-! # Runs of a session

A session is driven by four operations, in any order and number; a run is what comes of a
list of them, one after the other (`outcomes`).  An operation that finds no memory ends the
run: it has neither an event nor a session after it.

What holds in every state of every run is proved by `outcomes_induction`: it is enough that
it holds at first and that each operation keeps it.  The property may depend on the
operations made so far, for instance on the feed that was set last (`feedAfter`).
-/
namespace GrammarArt.Session

/-- What can be asked of a session. -/
inductive Operation where
  | derive
  | advance
  | setVariables (feed : Feed)
  | cancel

/-- What comes of an operation: an event, whether the image has to be rendered again, and
the session after it. -/
structure Outcome where
  event : Option Event
  rerender : Bool
  session : Session

/-- One operation. -/
def perform (s : Session) : Operation → Except Exhausted Outcome
  | .derive => s.derive.map fun (event, s) => ⟨some event, false, s⟩
  | .advance => s.advance.map fun (event, s) => ⟨event, false, s⟩
  | .setVariables feed =>
    let (rerender, s) := s.setVariables feed
    .ok ⟨none, rerender, s⟩
  | .cancel => .ok ⟨none, false, s.cancel⟩

variable {s : Session} {o : Outcome}

theorem perform_derive_eq_ok_iff :
    s.perform .derive = .ok o ↔
      ∃ event s', s.derive = .ok (event, s') ∧ o = ⟨some event, false, s'⟩ := by
  rw [perform]
  cases s.derive with
  | error e => exact ⟨nofun, by rintro ⟨_, _, ⟨⟩, -⟩⟩
  | ok result =>
    constructor
    · rintro ⟨⟩
      exact ⟨_, _, rfl, rfl⟩
    · rintro ⟨_, _, ⟨⟩, rfl⟩
      rfl

theorem perform_derive_eq_error_iff {e : Exhausted} :
    s.perform .derive = .error e ↔ s.derive = .error e := by
  rw [perform]
  cases s.derive with
  | error e => simp [Except.map]
  | ok result => simp [Except.map]

theorem perform_advance_eq_ok_iff :
    s.perform .advance = .ok o ↔
      ∃ event s', s.advance = .ok (event, s') ∧ o = ⟨event, false, s'⟩ := by
  rw [perform]
  cases s.advance with
  | error e => exact ⟨nofun, by rintro ⟨_, _, ⟨⟩, -⟩⟩
  | ok result =>
    constructor
    · rintro ⟨⟩
      exact ⟨_, _, rfl, rfl⟩
    · rintro ⟨_, _, ⟨⟩, rfl⟩
      rfl

theorem perform_advance_eq_error_iff {e : Exhausted} :
    s.perform .advance = .error e ↔ s.advance = .error e := by
  rw [perform]
  cases s.advance with
  | error e => simp [Except.map]
  | ok result => simp [Except.map]

theorem perform_setVariables (s : Session) (feed : Feed) :
    s.perform (.setVariables feed) =
      .ok ⟨none, (s.setVariables feed).1, (s.setVariables feed).2⟩ := rfl

/-- What comes of operations in a row, up to the first that finds no memory. -/
def outcomes (s : Session) : List Operation → List Outcome
  | [] => []
  | op :: ops =>
    match s.perform op with
    | .error _ => []
    | .ok o => o :: o.session.outcomes ops

/-- The feed in force after some operations: the one that was set last, if one was. -/
def feedAfter (first : Feed) (ops : List Operation) : Feed :=
  ops.foldl (fun feed op => match op with | .setVariables feed => feed | _ => feed) first

theorem feedAfter_append (first : Feed) (ops ops' : List Operation) :
    feedAfter first (ops ++ ops') = feedAfter (feedAfter first ops) ops' :=
  List.foldl_append

/-- **A run keeps what every operation keeps.**  `P` holds of the operations made so far and
the session after them, `Q` of the operations made before an outcome and the outcome. -/
theorem outcomes_induction {P : List Operation → Session → Prop}
    {Q : List Operation → Outcome → Prop}
    (step : ∀ past s op o, P past s → s.perform op = .ok o →
      P (past ++ [op]) o.session ∧ Q past o)
    {s : Session} (past : List Operation) (hs : P past s) {ops : List Operation} {k : Nat}
    {o : Outcome} (ho : (s.outcomes ops)[k]? = some o) :
    P (past ++ ops.take (k + 1)) o.session ∧ Q (past ++ ops.take k) o := by
  induction ops generalizing s past k with
  | nil => simp [outcomes] at ho
  | cons op ops ih =>
    rw [outcomes] at ho
    split at ho
    · simp at ho
    · rename_i o' hperform
      obtain ⟨hP, hQ⟩ := step past s op o' hs hperform
      cases k with
      | zero =>
        cases Option.some.inj ho
        exact ⟨by simpa using hP, by simpa using hQ⟩
      | succ k =>
        have h := ih _ hP (k := k) (by simpa using ho)
        simpa using h

end GrammarArt.Session
