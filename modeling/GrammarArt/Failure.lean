import GrammarArt.Derivation
import GrammarArt.Expression.Parser
import GrammarArt.Frame
import GrammarArt.Grammar.Error

/-! # Failures

All that can go wrong between a request and an image, by cause.  A failure lies with the
request, its text, its depth or its size, or else with the program that serves it
(`Failure.isRequestFault`).
-/
namespace GrammarArt

/-- Something that is asked for and makes no sense. -/
inductive Invalid where
  | size (error : Frame.SizeError)
  /-- A time that is not a finite number. -/
  | time
  | depth (given most : Nat)
  /-- A session that was already told to derive its tree. -/
  | notIdle (session : Nat)
  /-- A command without a session. -/
  | noSession
  deriving DecidableEq, Repr

/-- Something that cannot be done now. -/
inductive Unavailable where
  | executor
  | noTree
  | queueFull
  | workerExited (session : Nat)
  deriving DecidableEq, Repr

/-- Why a request fails. -/
inductive Failure where
  | grammar (error : GrammarError)
  | expression (error : Expression.ParseError)
  | derivation (error : DerivationError)
  | invalid (cause : Invalid)
  | unavailable (cause : Unavailable)
  deriving DecidableEq, Repr

/-- The text of an invalid demand. -/
def Invalid.message : Invalid → String
  | size e => e.message
  | time => "time must be finite"
  | depth given most => s!"depth {given} exceeds the maximum of {most}"
  | notIdle session => s!"session #{session} already left the idle state"
  | noSession => "no session has been started"

/-- The text of something unavailable. -/
def Unavailable.message : Unavailable → String
  | executor => "requested executor is not available (build with the `gpu` feature)"
  | noTree => "session has no tree to render"
  | queueFull => "session request queue is full; drain events first"
  | workerExited session => s!"session #{session} worker has exited"

namespace Failure

/-- The text of the cause of a failure. -/
def cause : Failure → String
  | grammar e => e.message
  | expression e => e.message
  | derivation e => e.message
  | invalid e => e.message
  | unavailable e => e.message

/-- The text of a failure. -/
def message (failure : Failure) : String :=
  let stage := match failure with
    | grammar _ => "grammar error"
    | expression _ => "expression parse error"
    | derivation _ => "synthesis error"
    | invalid _ => "validation error"
    | unavailable _ => "backend error"
  s!"{stage}: {failure.cause}"

/-- Whether a failure lies with the request. -/
def isRequestFault : Failure → Bool
  | unavailable _ => false
  | _ => true

end Failure

end GrammarArt
