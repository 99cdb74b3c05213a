import GrammarArt.Program.Basic
import GrammarArt.Proofs.Tree.Feed

/-! # A lowered tree computes what the tree does

A program is laid out for a list of nodes (`Layout`) if it has one instruction for each of
them, in this order, whose operands are the registers of the node's children and whose range
of parameters holds the parameters of the node; the ranges follow one another in the list of
all parameters.  The instructions of a tree are written behind those of a program that is
already there, so the statement that can be proved by induction is about that program too: a
layout is extended by the nodes of the tree (`Layout.lowerOnto`).

A program that is laid out for nodes runs without reading a register that is not there yet or
a parameter that does not exist, and leaves the value of every node in its register
(`Layout.run?_eq`).  Nothing is known about the function of kinds, parameters and arguments
that it is run with; so `Tree.eval` and `Program.eval` agree in particular (`eval_lower`).  All
of this is put together in `Tree.lower_computes_nodes`.
-/
namespace GrammarArt

namespace Program

/-! ### Layout -/

/-- The instruction in a place computes the node that stands in this place of a list. -/
structure Encodes (nodes : List Tree) (place : Nat) (node : Tree) (i : Instruction) : Prop where
  kind_eq : i.kind = node.kind
  first_eq : i.first = ((nodes.take place).flatMap Tree.parameters).length
  stop_eq : i.stop = i.first + node.parameters.length
  operands_lt : ∀ r ∈ i.operands, r < place
  operands_eq : i.operands.map (nodes[·]?) = node.children.map some

/-- The program has one instruction for each of the nodes and nothing else. -/
structure Layout (nodes : List Tree) (p : Program) : Prop where
  size_eq : p.size = nodes.length
  parameters_eq : p.parameters.toList = nodes.flatMap Tree.parameters
  encodes : ∀ place node, nodes[place]? = some node →
    ∃ i, p.instructions[place]? = some i ∧ Encodes nodes place node i

theorem getElem?_append_of_some {α : Type} {l : List α} {i : Nat} {a : α} (h : l[i]? = some a)
    (more : List α) : (l ++ more)[i]? = some a := by
  obtain ⟨hi, -⟩ := List.getElem?_eq_some_iff.mp h
  rwa [List.getElem?_append_left hi]

/-- What is behind a place does not matter for the instruction there. -/
theorem Encodes.append {nodes : List Tree} {place : Nat} {node : Tree} {i : Instruction}
    (h : Encodes nodes place node i) (hplace : place ≤ nodes.length) (more : List Tree) :
    Encodes (nodes ++ more) place node i where
  kind_eq := h.kind_eq
  first_eq := by rw [List.take_append_of_le_length hplace, h.first_eq]
  stop_eq := h.stop_eq
  operands_lt := h.operands_lt
  operands_eq := by
    rw [← h.operands_eq]
    refine List.map_congr_left fun r hr => ?_
    exact List.getElem?_append_left (Nat.lt_of_lt_of_le (h.operands_lt r hr) hplace)

theorem layout_empty : Layout [] empty := ⟨rfl, rfl, nofun⟩

theorem parameters_push (p : Program) (kind : Kind) (parameters : List Float32)
    (operands : List Nat) :
    (p.push kind parameters operands).parameters.toList = p.parameters.toList ++ parameters := by
  simp [push]

/-- An instruction for one more node, whose children have registers already. -/
theorem Layout.push {nodes : List Tree} {p : Program} (h : Layout nodes p) (node : Tree)
    (operands : List Nat) (hoperands : operands.map (nodes[·]?) = node.children.map some) :
    Layout (nodes ++ [node]) (p.push node.kind node.parameters operands) where
  size_eq := by
    rw [List.length_append, ← h.size_eq]
    exact Array.size_push _
  parameters_eq := by
    rw [parameters_push, h.parameters_eq, List.flatMap_append, List.flatMap_singleton]
  encodes := by
    intro place node' hnode'
    have hsize : p.instructions.size = nodes.length := h.size_eq
    rcases Nat.lt_trichotomy place nodes.length with hlt | rfl | hgt
    · rw [List.getElem?_append_left hlt] at hnode'
      obtain ⟨i, hi, hencodes⟩ := h.encodes place node' hnode'
      refine ⟨i, ?_, hencodes.append (Nat.le_of_lt hlt) _⟩
      show (p.instructions.push _)[place]? = some i
      rw [Array.getElem?_push_lt (by rw [hsize]; exact hlt), ← hi, Array.getElem?_eq_getElem]
    · rw [List.getElem?_concat_length] at hnode'
      cases hnode'
      refine ⟨_, by rw [← hsize]; exact Array.getElem?_push_size, rfl, ?_, rfl, ?_, ?_⟩
      · show p.parameters.size = _
        rw [List.take_left, ← h.parameters_eq, Array.length_toList]
      · intro r hr
        have hchild : nodes[r]? ∈ operands.map (nodes[·]?) := List.mem_map_of_mem hr
        rw [hoperands] at hchild
        obtain ⟨c, -, hc⟩ := List.mem_map.mp hchild
        exact (List.getElem?_eq_some_iff.mp hc.symm).1
      · show operands.map _ = _
        rw [← hoperands]
        refine List.map_congr_left fun r hr => ?_
        have hchild : nodes[r]? ∈ operands.map (nodes[·]?) := List.mem_map_of_mem hr
        rw [hoperands] at hchild
        obtain ⟨c, -, hc⟩ := List.mem_map.mp hchild
        rw [← hc, getElem?_append_of_some hc.symm]
    · rw [List.getElem?_eq_none (by rwa [List.length_append])] at hnode'
      cases hnode'

/-- The instructions have the kinds of the nodes. -/
theorem Layout.kinds_eq {nodes : List Tree} {p : Program} (h : Layout nodes p) :
    p.instructions.toList.map Instruction.kind = nodes.map Tree.kind := by
  refine List.ext_getElem? fun place => ?_
  rw [List.getElem?_map, List.getElem?_map, Array.getElem?_toList]
  cases hnode : nodes[place]? with
  | some node =>
    obtain ⟨i, hi, hencodes⟩ := h.encodes place node hnode
    rw [hi, Option.map_some, Option.map_some, hencodes.kind_eq]
  | none =>
    rw [List.getElem?_eq_none_iff, ← h.size_eq] at hnode
    rw [Array.getElem?_eq_none hnode]
    rfl

/-! ### Running with every index checked -/

variable {α : Type} [Inhabited α] (f : Kind → List Float32 → List α → α)

/-- The registers after one more instruction, if all its operands and parameters are there. -/
def execute? (p : Program) (registers : Array α) (i : Instruction) : Option (Array α) :=
  if i.first ≤ i.stop ∧ i.stop ≤ p.parameters.size ∧ ∀ r ∈ i.operands, r < registers.size then
    some (execute f p registers i)
  else none

/-- The registers after all instructions, if none of them reads what is not there. -/
def run? (p : Program) : Option (Array α) :=
  p.instructions.toList.foldlM (execute? f p) #[]

/-- Where every index is right, checking them changes nothing. -/
theorem registers_eq_of_run? {p : Program} {registers : Array α} (h : p.run? f = some registers) :
    p.registers f = registers := by
  have key : ∀ (is : List Instruction) (before after : Array α),
      is.foldlM (execute? f p) before = some after → is.foldl (execute f p) before = after := by
    intro is
    induction is with
    | nil =>
      intro before after h
      cases h
      rfl
    | cons i is ih =>
      intro before after h
      obtain ⟨between, hi, his⟩ := Option.bind_eq_some_iff.mp h
      unfold execute? at hi
      split at hi
      · cases hi
        exact ih _ _ his
      · cases hi
  rw [Program.registers, ← Array.foldl_toList]
  exact key _ _ _ h

variable {f} {nodes : List Tree} {p : Program}

/-- The parameters of an instruction are those of its node. -/
theorem Layout.parametersOf_eq (h : Layout nodes p) {place : Nat} {node : Tree} {i : Instruction}
    (hnode : nodes[place]? = some node) (hi : Encodes nodes place node i) :
    p.parametersOf i = node.parameters ∧ i.stop ≤ p.parameters.size := by
  obtain ⟨hlt, rfl⟩ := List.getElem?_eq_some_iff.mp hnode
  have hsplit : p.parameters.toList = (nodes.take place).flatMap Tree.parameters ++
      (nodes[place].parameters ++ (nodes.drop (place + 1)).flatMap Tree.parameters) := by
    rw [h.parameters_eq, ← List.flatMap_cons, ← List.flatMap_append, List.getElem_cons_drop,
      List.take_append_drop]
  constructor
  · rw [parametersOf, Array.toList_extract, List.extract_eq_take_drop, hsplit, hi.stop_eq,
      hi.first_eq, Nat.add_sub_cancel_left, List.drop_left, List.take_left]
  · rw [← Array.length_toList, hsplit, hi.stop_eq, hi.first_eq, List.length_append,
      List.length_append]
    omega

/-- With the values of all earlier nodes in their registers, an instruction finds what it reads
and adds the value of its own node. -/
theorem Layout.execute?_eq (h : Layout nodes p) {place : Nat} {node : Tree} {i : Instruction}
    (hnode : nodes[place]? = some node) (hi : Encodes nodes place node i) :
    execute? f p ((nodes.take place).map (Tree.evalBy f)).toArray i =
      some ((nodes.take place).map (Tree.evalBy f) ++ [node.evalBy f]).toArray := by
  obtain ⟨hparameters, hstop⟩ := h.parametersOf_eq hnode hi
  have hplace : place ≤ nodes.length :=
    Nat.le_of_lt (List.getElem?_eq_some_iff.mp hnode).1
  have hargs : i.operands.map (((nodes.take place).map (Tree.evalBy f)).toArray.getD · default) =
      node.children.map (Tree.evalBy f) := by
    have hread : ∀ r ∈ i.operands,
        ((nodes.take place).map (Tree.evalBy f)).toArray.getD r default =
          ((nodes[r]?).map (Tree.evalBy f)).getD default := by
      intro r hr
      rw [Array.getD_eq_getD_getElem?, List.getElem?_toArray, List.getElem?_map,
        List.getElem?_take_of_lt (hi.operands_lt r hr)]
    have hmap := congrArg (List.map fun o => (Option.map (Tree.evalBy f) o).getD default)
      hi.operands_eq
    rw [List.map_map, List.map_map] at hmap
    exact (List.map_congr_left hread).trans hmap
  have hsize : ((nodes.take place).map (Tree.evalBy f)).toArray.size = place := by
    rw [List.size_toArray, List.length_map, List.length_take, Nat.min_eq_left hplace]
  have hfound : i.first ≤ i.stop ∧ i.stop ≤ p.parameters.size ∧
      ∀ r ∈ i.operands, r < ((nodes.take place).map (Tree.evalBy f)).toArray.size := by
    refine ⟨hi.stop_eq ▸ Nat.le_add_right _ _, hstop, fun r hr => ?_⟩
    rw [hsize]
    exact hi.operands_lt r hr
  rw [execute?, if_pos hfound, execute, hargs, hparameters, hi.kind_eq, ← node.evalBy_eq f,
    List.push_toArray]

/-- **A program that is laid out for nodes runs to its end, and every node has its value in its
register.** -/
theorem Layout.run?_eq (h : Layout nodes p) :
    p.run? f = some (nodes.map (Tree.evalBy f)).toArray := by
  have key : ∀ place ≤ nodes.length, (p.instructions.toList.take place).foldlM (execute? f p) #[] =
      some ((nodes.take place).map (Tree.evalBy f)).toArray := by
    intro place
    induction place with
    | zero => exact fun _ => rfl
    | succ place ih =>
      intro hplace
      have hnode : nodes[place]? = some nodes[place] := List.getElem?_eq_getElem hplace
      obtain ⟨i, hi, hencodes⟩ := h.encodes place _ hnode
      rw [List.take_add_one, List.take_add_one, hnode, Array.getElem?_toList, hi,
        List.foldlM_append, ih (Nat.le_of_succ_le hplace), List.map_append]
      simp only [Option.bind_eq_bind, Option.bind_some, Option.toList_some, List.foldlM_cons,
        List.foldlM_nil, h.execute?_eq hnode hencodes]
      rfl
  have hall := key nodes.length (Nat.le_refl _)
  have hsize : p.instructions.toList.length = nodes.length := h.size_eq
  rwa [List.take_length, ← hsize, List.take_length] at hall

end Program

namespace Tree

open Program

/-- What ends with the nodes of a tree has the tree itself in its last register. -/
theorem getElem?_result (nodes : List Tree) {t : Tree} {p : Program}
    (h : Layout (nodes ++ t.nodes) p) : (nodes ++ t.nodes)[p.result]? = some t := by
  rw [result, h.size_eq, ← List.getLast?_eq_getElem?, List.getLast?_append, getLast?_nodes]
  rfl

/-- **Lowering a tree writes its nodes behind those that are there already.** -/
theorem layout_lowerOnto {nodes : List Tree} {p : Program} (h : Layout nodes p) (t : Tree) :
    Layout (nodes ++ t.nodes) (lowerOnto p t) := by
  induction t generalizing nodes p with
  | terminal id op => exact h.push (terminal id op) [] rfl
  | unary id op a iha =>
    have ha := iha h
    have hargs : [(lowerOnto p a).result].map ((nodes ++ a.nodes)[·]?) = [some a] := by
      rw [List.map_singleton, getElem?_result _ ha]
    have hq := ha.push (unary id op a) _ hargs
    rwa [List.append_assoc] at hq
  | binary id op a b iha ihb =>
    have ha := iha h
    have hb := ihb ha
    have hargs : [(lowerOnto p a).result, (lowerOnto (lowerOnto p a) b).result].map
        ((nodes ++ a.nodes ++ b.nodes)[·]?) = [some a, some b] := by
      rw [List.map_cons, List.map_singleton, getElem?_append_of_some (getElem?_result _ ha),
        getElem?_result _ hb]
    have hq := hb.push (binary id op a b) _ hargs
    simp only [Tree.nodes, List.append_assoc] at hq ⊢
    exact hq
  | ternary id op a b c iha ihb ihc =>
    have ha := iha h
    have hb := ihb ha
    have hc := ihc hb
    have hargs : [(lowerOnto p a).result, (lowerOnto (lowerOnto p a) b).result,
        (lowerOnto (lowerOnto (lowerOnto p a) b) c).result].map
        ((nodes ++ a.nodes ++ b.nodes ++ c.nodes)[·]?) = [some a, some b, some c] := by
      rw [List.map_cons, List.map_cons, List.map_singleton,
        getElem?_append_of_some (getElem?_append_of_some (getElem?_result _ ha) _),
        getElem?_append_of_some (getElem?_result _ hb), getElem?_result _ hc]
    have hq := hc.push (ternary id op a b c) _ hargs
    simp only [Tree.nodes, List.append_assoc] at hq ⊢
    exact hq

theorem layout_lower (t : Tree) : Layout t.nodes t.lower := layout_lowerOnto layout_empty t

variable {α : Type} [Inhabited α] (f : Kind → List Float32 → List α → α)

/-- The registers of a lowered tree hold the values of its nodes. -/
theorem registers_lower (t : Tree) :
    t.lower.registers f = (t.nodes.map (evalBy f)).toArray :=
  registers_eq_of_run? f t.layout_lower.run?_eq

/-- **A lowered tree has the value of the tree**, whatever is computed. -/
theorem evalBy_lower (t : Tree) : t.lower.evalBy f = t.evalBy f := by
  rw [Program.evalBy, registers_lower, List.back?_toArray, List.getLast?_map, getLast?_nodes]
  rfl

theorem eval_lower (t : Tree) (point : Point) (feed : Feed) :
    t.lower.eval point feed = t.eval point feed :=
  evalBy_lower _ t

/-- A program depends on the feed if the tree does that it was made from. -/
theorem readsVariables_lower (t : Tree) : t.lower.readsVariables = t.readsVariables := by
  have h := congrArg (List.any · Kind.readsVariables) t.layout_lower.kinds_eq
  simp only [List.any_map] at h
  rw [readsVariables_eq_any, Program.readsVariables, ← Array.any_toList]
  exact h

/-- The registers that are there before a run do not matter. -/
theorem evalIn_lower (t : Tree) (scratch : Array α) :
    t.lower.evalIn scratch f = (t.evalBy f, t.lower.registers f) := by
  refine Prod.ext ((t.lower.evalIn_fst scratch f).trans (t.evalBy_lower f)) ?_
  simp [evalIn, Program.registers]

/-- **A lowered tree is its nodes in post-order and computes the tree.**  There is one
instruction for each node, laid out behind those of its children, and the last one is for the
tree itself.  Whatever is computed for a node, and whatever the registers held before, the
program runs with every index in range and ends with the value of the tree; with colors, it
has the color of the tree at every point and under every feed. -/
theorem lower_computes_nodes (t : Tree) :
    Layout t.nodes t.lower ∧ t.postOrder = t.nodes.map (fun s => (s.id, s.kind)) ∧
      t.lower.size = t.nodeCount ∧ t.nodes[t.lower.result]? = some t ∧
      t.lower.readsVariables = t.readsVariables ∧
      (∀ {α : Type} [Inhabited α] (f : Kind → List Float32 → List α → α) (scratch : Array α),
        t.lower.run? f = some (t.nodes.map (evalBy f)).toArray ∧
          t.lower.evalIn scratch f = (t.evalBy f, (t.nodes.map (evalBy f)).toArray)) ∧
      ∀ (scratch : Array Color) (point : Point) (feed : Feed),
        (t.lower.evalIn scratch (combine point feed)).1 = t.eval point feed := by
  have hlayout := t.layout_lower
  have hsize : t.lower.size = t.nodeCount := hlayout.size_eq.trans t.nodeCount_eq.symm
  refine ⟨hlayout, t.postOrder_eq, hsize, getElem?_result [] hlayout,
    t.readsVariables_lower, fun f scratch => ⟨hlayout.run?_eq, ?_⟩, fun scratch point feed => ?_⟩
  · rw [evalIn_lower, registers_lower]
  · rw [evalIn_lower]
    rfl

end Tree

end GrammarArt
