import GrammarArt.Tree.Basic
import Mathlib.Data.List.Basic

/-! # The nodes of a tree in a row

A node stands for the subtree below it, so the nodes of a tree are its subtrees, here listed
in post-order (`nodes`).  The identifiers and kinds of all nodes, their number and whether one
of them is a variable are read off this list; `Mentions` says which variables occur.
-/
namespace GrammarArt.Tree

/-- All subtrees, children before their parents. -/
def nodes : Tree → List Tree
  | terminal id op => [terminal id op]
  | unary id op a => a.nodes ++ [unary id op a]
  | binary id op a b => a.nodes ++ b.nodes ++ [binary id op a b]
  | ternary id op a b c => a.nodes ++ b.nodes ++ c.nodes ++ [ternary id op a b c]

theorem nodes_eq (t : Tree) : t.nodes = t.children.flatMap nodes ++ [t] := by
  cases t with
  | terminal _ _ => rfl
  | unary _ _ a => simp [nodes, children]
  | binary _ _ a b => simp [nodes, children]
  | ternary _ _ a b c => simp [nodes, children]

theorem getLast?_nodes (t : Tree) : t.nodes.getLast? = some t := by
  rw [nodes_eq, List.getLast?_concat]

theorem mem_nodes {s t : Tree} : s ∈ t.nodes ↔ (∃ c ∈ t.children, s ∈ c.nodes) ∨ s = t := by
  rw [nodes_eq, List.mem_append, List.mem_flatMap, List.mem_singleton]

theorem postOrder_eq (t : Tree) : t.postOrder = t.nodes.map fun s => (s.id, s.kind) := by
  induction t using induct with
  | step t ih =>
    rw [nodes_eq, List.map_append, List.map_flatMap, postOrder, fold_eq, ← List.flatMap_def]
    exact congrArg (· ++ [(t.id, t.kind)]) (List.flatMap_congr ih)

theorem nodeCount_eq (t : Tree) : t.nodeCount = t.nodes.length := by
  induction t with
  | terminal _ _ => rfl
  | unary _ _ a iha =>
    rw [nodes, List.length_append, ← iha]
    rfl
  | binary _ _ a b iha ihb =>
    rw [nodes, List.length_append, List.length_append, ← iha, ← ihb, Nat.add_assoc]
    rfl
  | ternary _ _ a b c iha ihb ihc =>
    rw [nodes, List.length_append, List.length_append, List.length_append, ← iha, ← ihb, ← ihc,
      Nat.add_assoc, Nat.add_assoc]
    rfl

theorem readsVariables_eq (t : Tree) :
    t.readsVariables = (t.kind.readsVariables || t.children.any readsVariables) := by
  rw [readsVariables, fold_eq, List.any_map]
  rfl

theorem readsVariables_eq_any (t : Tree) :
    t.readsVariables = t.nodes.any fun s => s.kind.readsVariables := by
  induction t using induct with
  | step t ih =>
    have hchildren : t.children.any readsVariables =
        t.children.any fun c => c.nodes.any fun s => s.kind.readsVariables := by
      rw [Bool.eq_iff_iff, List.any_eq_true, List.any_eq_true]
      exact exists_congr fun c => and_congr_right fun hc => by rw [ih c hc]
    rw [readsVariables_eq, nodes_eq, List.any_append, List.any_flatMap, Bool.or_comm, hchildren]
    simp

/-! ### Variables of a tree -/

/-- Some node of the tree is the variable. -/
def Mentions (t : Tree) (v : Variable) : Prop := ∃ id, (id, Kind.var v) ∈ t.postOrder

theorem mentions_iff_mem_nodes {t : Tree} {v : Variable} :
    t.Mentions v ↔ ∃ s ∈ t.nodes, s.kind = .var v := by
  simp only [Mentions, postOrder_eq, List.mem_map, Prod.mk.injEq]
  constructor
  · rintro ⟨_, s, hs, -, hkind⟩
    exact ⟨s, hs, hkind⟩
  · rintro ⟨s, hs, hkind⟩
    exact ⟨s.id, s, hs, rfl, hkind⟩

theorem mentions_iff {t : Tree} {v : Variable} :
    t.Mentions v ↔ t.kind = .var v ∨ ∃ c ∈ t.children, c.Mentions v := by
  constructor
  · intro h
    obtain ⟨s, hs, hkind⟩ := mentions_iff_mem_nodes.mp h
    rcases mem_nodes.mp hs with ⟨c, hc, hs⟩ | rfl
    · exact .inr ⟨c, hc, mentions_iff_mem_nodes.mpr ⟨s, hs, hkind⟩⟩
    · exact .inl hkind
  · rintro (hkind | ⟨c, hc, h⟩)
    · exact mentions_iff_mem_nodes.mpr ⟨t, mem_nodes.mpr (.inr rfl), hkind⟩
    · obtain ⟨s, hs, hkind⟩ := mentions_iff_mem_nodes.mp h
      exact mentions_iff_mem_nodes.mpr ⟨s, mem_nodes.mpr (.inl ⟨c, hc, hs⟩), hkind⟩

/-- A tree reads variables if it mentions one. -/
theorem readsVariables_iff {t : Tree} : t.readsVariables = true ↔ ∃ v, t.Mentions v := by
  have hkind (k : Kind) : k.readsVariables = true ↔ ∃ v, k = .var v := by
    cases k <;> simp [Kind.readsVariables]
  simp only [readsVariables_eq_any, List.any_eq_true, hkind, mentions_iff_mem_nodes]
  constructor
  · rintro ⟨s, hs, v, hv⟩
    exact ⟨v, s, hs, hv⟩
  · rintro ⟨v, s, hs, hv⟩
    exact ⟨s, hs, v, hv⟩

end GrammarArt.Tree
