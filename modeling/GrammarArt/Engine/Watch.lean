import GrammarArt.Engine

/-! # Watching an image grow

A caller that wants the finished image receives one event after another, and asks for the
next step after each step that is not the last one.
-/
namespace GrammarArt.Engine

/-- The events that such a caller receives, at most `n`; a failure is the last one. -/
def watch : (n : Nat) → Engine → List Event
  | 0, _ => []
  | n + 1, e =>
    match e.settle.receive with
    | (none, _) => []
    | (some event, e) =>
      match event with
      | .expression _ _ _ => event :: watch n e
      | .failed _ _ => [event]
      | .progress _ current total _ =>
        if current = total then [event]
        else match e.command .next with
          | .error _ => [event]
          | .ok e => event :: watch n e

/-- The events of a request: one for the tree, and one for each step.  They end early if the
worker breaks down. -/
def watchRequest (request : StartRequest) : List Event :=
  match (new .default).start request with
  | .error _ => []
  | .ok (_, e) => e.watch (stepCount request.width.toNat request.height.toNat + 1)

end GrammarArt.Engine
