import GrammarArt.Proofs.Tree.Nodes
import GrammarArt.Tree.Eval

/-! # What a tree depends on

Of a feed, a tree reads the variables that it mentions and no others: under two feeds that
agree on these it has the same color (`eval_congr`).  In particular a tree without variables
has the same color under every feed (`eval_eq_of_not_readsVariables`), so what was computed
for such a tree stays right when the feed changes.
-/
namespace GrammarArt

/-- A node reads the variable that it is, if it is one. -/
theorem combine_congr {kind : Kind} {a b : Feed} (h : ∀ v, kind = .var v → a.get v = b.get v)
    (point : Point) (parameters : List Float32) (args : List Color) :
    combine point a kind parameters args = combine point b kind parameters args := by
  have hraw : combineRaw point a kind parameters args =
      combineRaw point b kind parameters args := by
    unfold combineRaw
    split
    case h_4 => rw [h _ rfl]
    all_goals rfl
  rw [combine, combine, hraw]

namespace Tree

theorem evalBy_eq {α : Type} (f : Kind → List Float32 → List α → α) (t : Tree) :
    t.evalBy f = f t.kind t.parameters (t.children.map (evalBy f)) :=
  fold_eq _ t

/-- **A tree has one color under feeds that agree on its variables.** -/
theorem eval_congr {t : Tree} {a b : Feed} (h : ∀ v, t.Mentions v → a.get v = b.get v)
    (point : Point) : t.eval point a = t.eval point b := by
  induction t using induct with
  | step t ih =>
    have hargs : t.children.map (evalBy (combine point a)) =
        t.children.map (evalBy (combine point b)) :=
      List.map_congr_left fun c hc => ih c hc fun v hv => h v (mentions_iff.mpr (.inr ⟨c, hc, hv⟩))
    rw [eval, eval, evalBy_eq, evalBy_eq, hargs]
    exact combine_congr (fun v hv => h v (mentions_iff.mpr (.inl hv))) point _ _

/-- **A tree without variables does not depend on the feed.** -/
theorem eval_eq_of_not_readsVariables (t : Tree) (ht : t.readsVariables = false)
    (point : Point) (a b : Feed) : t.eval point a = t.eval point b := by
  refine eval_congr (fun v hv => ?_) point
  rw [readsVariables_iff.mpr ⟨v, hv⟩] at ht
  cases ht

end Tree

end GrammarArt
