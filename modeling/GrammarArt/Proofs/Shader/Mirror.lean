import GrammarArt.Proofs.Derivation.Expansion
import GrammarArt.Proofs.Expression.Language
import GrammarArt.Proofs.Program.Lowering
import GrammarArt.Proofs.Shader.Execution
import GrammarArt.Proofs.Shader.Naming

/-! # Shader code mirrors the register program

The code of a tree and the program that the tree is lowered to are made from the same nodes in
the same order, but values are numbered in two ways: a line of code is named after the identifier
of its node, a register after the place of its instruction.  Each line is described by the names
and the texts in it (`Line`), and each kind of node by the expression that it is written as
(`template`), so the lines of a tree and those of a program can be compared.

What relates them is the layout of the lowered program: it says in which places the children of a
node stand, so they stand before it, and nothing has to be proved by another induction on the
tree.  If the nodes are numbered in post-order then the place of a node is its identifier, and the
lines of the tree are those of the program (`lines_lower`).  If the identifiers are just distinct,
no name is bound twice, and every name that is used was bound on an earlier line
(`code_mirrors_program`).
-/
namespace GrammarArt

namespace Shader

/-! ### Terms with operators -/

section
variable {op : Operator} {rank : Nat}

theorem render_bare (h : rank ≤ op.rank) (a b : Term) : (Term.infixed op a b).render rank =
    s!"{a.render (Nat.max op.rank 1)} {op.text} {b.render (op.rank + 1)}" :=
  if_neg (Nat.not_lt.mpr h)

theorem render_enclosed (h : op.rank < rank) (a b : Term) : (Term.infixed op a b).render rank =
    s!"({a.render (Nat.max op.rank 1)} {op.text} {b.render (op.rank + 1)})" := by
  rw [Term.render, if_pos h]
  simp [← String.toList_inj, toString]

theorem render_node (id : Nat) : (Term.node id).render rank = nodeName id := rfl

theorem render_literal (v : Float32) : (Term.literal v).render rank = literalText v := rfl

theorem render_call₁ (f : Function) (a : Term) : (Term.call₁ f a).render rank =
    s!"{f.text}({a.render 0})" := rfl

theorem render_call₂ (f : Function) (a b : Term) : (Term.call₂ f a b).render rank =
    s!"{f.text}({a.render 0}, {b.render 0})" := rfl

theorem render_call₃ (f : Function) (a b c : Term) : (Term.call₃ f a b c).render rank =
    s!"{f.text}({a.render 0}, {b.render 0}, {c.render 0})" := rfl

end

/-! ### Expressions -/

/-- The expression of a kind, with the texts of its parameters and the names of its operands in
their places. -/
def template : Kind → (literals names : List String) → String
  | .x, _, _ => "vec3<f32>(p.x)"
  | .y, _, _ => "vec3<f32>(p.y)"
  | .t, _, _ => "vec3<f32>(p.z)"
  | .var v, _, _ => s!"vec3<f32>(params.vars[{v.slot / 4}][{v.slot % 4}])"
  | .bw, [value], _ => s!"vec3<f32>({value})"
  | .rgb, [red, green, blue], _ => s!"vec3<f32>({red}, {green}, {blue})"
  | .sin, [frequency, phase], [a] => s!"sin({a} * {frequency} + {phase})"
  | .cos, [frequency, phase], [a] => s!"cos({a} * {frequency} + {phase})"
  | .tan, [frequency, phase], [a] => s!"tan({a} * {frequency} + {phase})"
  | .exp, _, [a] => s!"2.0 * (exp({a}) - 0.36787945) / (2.7182817 - 0.36787945) - 1.0"
  | .sqrt, _, [a] => s!"sqrt(max(({a} + 1.0) * 0.5, vec3<f32>(0.0))) * 2.0 - 1.0"
  | .sum, _, [a, b] => s!"({a} + {b}) * 0.5"
  | .mult, _, [a, b] => s!"{a} * {b}"
  | .mod, _, [a, b] =>
    let isZero := s!"{b} == vec3<f32>(0.0)"
    s!"select({a} % select({b}, vec3<f32>(1.0), {isZero}), {a}, {isZero})"
  | .mix, _, [a, b, c] => s!"mix({b}, {c}, ({a} + 1.0) * 0.5)"
  | .level, [threshold], [a, b, c] => s!"select({c}, {b}, {a} < vec3<f32>({threshold}))"
  | .triple, _, [a, b, c] => s!"vec3<f32>({a}.x, {b}.y, {c}.z)"
  | _, _, _ => ""

/-- The numbers that are in the expressions of all nodes of a kind. -/
theorem literalText_constants : literalText 0 = "0.0" ∧ literalText 0.5 = "0.5" ∧
    literalText 1 = "1.0" ∧ literalText 2 = "2.0" ∧ literalText expRange.1 = "0.36787945" ∧
    literalText expRange.2 = "2.7182817" := by
  decide

theorem render_terminal (op : Terminal) : (nodeTerm op.kind op.parameters []).render 0 =
    template op.kind (op.parameters.map literalText) [] := by
  cases op with
  | x | y | t | bw _ | rgb _ _ _ => rfl
  | var v => cases v <;> rfl

theorem render_wave (f : Function) (a : Nat) (frequency phase : Float32) :
    (wave f a frequency phase).render 0 =
      s!"{f.text}({nodeName a} * {literalText frequency} + {literalText phase})" := by
  simp (disch := decide) only [wave, render_call₁, render_bare, render_node, render_literal]
  simp [← String.toList_inj, Operator.text, toString]

theorem render_unary (op : Unary) (a : Nat) : (nodeTerm op.kind op.parameters [a]).render 0 =
    template op.kind (op.parameters.map literalText) [nodeName a] := by
  obtain ⟨hzero, hhalf, hone, htwo, hleast, hmost⟩ := literalText_constants
  cases op with
  | sin frequency phase => exact render_wave .sin a frequency phase
  | cos frequency phase => exact render_wave .cos a frequency phase
  | tan frequency phase => exact render_wave .tan a frequency phase
  | exp =>
    show (expTerm (.node a)).render 0 =
      s!"2.0 * (exp({nodeName a}) - 0.36787945) / (2.7182817 - 0.36787945) - 1.0"
    simp (disch := decide) only [expTerm, render_call₁, render_bare, render_enclosed, render_node,
      render_literal, hone, htwo, hleast, hmost]
    simp [← String.toList_inj, Operator.text, Function.text, toString]
  | sqrt =>
    show (sqrtTerm (.node a)).render 0 =
      s!"sqrt(max(({nodeName a} + 1.0) * 0.5, vec3<f32>(0.0))) * 2.0 - 1.0"
    simp (disch := decide) only [sqrtTerm, place, splat, render_call₁, render_call₂, render_bare,
      render_enclosed, render_node, render_literal, hzero, hhalf, hone, htwo]
    simp [← String.toList_inj, Operator.text, Function.text, toString]

theorem render_binary (op : Binary) (a b : Nat) :
    (nodeTerm op.kind op.parameters [a, b]).render 0 =
      template op.kind (op.parameters.map literalText) [nodeName a, nodeName b] := by
  obtain ⟨hzero, hhalf, hone, -⟩ := literalText_constants
  cases op with
  | sum =>
    show (Term.infixed .mul (.infixed .add (.node a) (.node b)) (.literal 0.5)).render 0 =
      s!"({nodeName a} + {nodeName b}) * 0.5"
    simp (disch := decide) only [render_bare, render_enclosed, render_node, render_literal, hhalf]
    simp [← String.toList_inj, Operator.text, toString]
  | mult =>
    show (Term.infixed .mul (.node a) (.node b)).render 0 = s!"{nodeName a} * {nodeName b}"
    simp (disch := decide) only [render_bare, render_node]
    simp [← String.toList_inj, Operator.text, toString]
  | mod =>
    let x := nodeName a
    let y := nodeName b
    let isZero := s!"{y} == vec3<f32>(0.0)"
    show (modTerm (.node a) (.node b)).render 0 =
      s!"select({x} % select({y}, vec3<f32>(1.0), {isZero}), {x}, {isZero})"
    simp (disch := decide) only [modTerm, splat, render_call₁, render_call₃, render_bare,
      render_node, render_literal, hzero, hone]
    simp [x, y, isZero, ← String.toList_inj, Operator.text, Function.text, toString]

theorem render_ternary (op : Ternary) (a b c : Nat) :
    (nodeTerm op.kind op.parameters [a, b, c]).render 0 =
      template op.kind (op.parameters.map literalText) [nodeName a, nodeName b, nodeName c] := by
  obtain ⟨-, hhalf, hone, -⟩ := literalText_constants
  cases op with
  | mix =>
    show (Term.call₃ .mix (.node b) (.node c) (place (.node a))).render 0 =
      s!"mix({nodeName b}, {nodeName c}, ({nodeName a} + 1.0) * 0.5)"
    simp (disch := decide) only [place, render_call₃, render_bare, render_enclosed, render_node,
      render_literal, hhalf, hone]
    simp [← String.toList_inj, Operator.text, Function.text, toString]
  | level threshold =>
    let least := literalText threshold
    show (Term.call₃ .select (.node c) (.node b)
        (.infixed .less (.node a) (splat (.literal threshold)))).render 0 =
      s!"select({nodeName c}, {nodeName b}, {nodeName a} < vec3<f32>({least}))"
    simp (disch := decide) only [splat, render_call₁, render_call₃, render_bare, render_node,
      render_literal]
    simp [least, ← String.toList_inj, Operator.text, Function.text, toString]
  | triple =>
    show (Term.call₃ .vec3 (.channel a .x) (.channel b .y) (.channel c .z)).render 0 =
      s!"vec3<f32>({nodeName a}.x, {nodeName b}.y, {nodeName c}.z)"
    simp [Term.render, ← String.toList_inj, Axis.text, Function.text, toString]

/-- **The term of a node is written as the template of its kind says.** -/
theorem render_nodeTerm (t : Tree) :
    (nodeTerm t.kind t.parameters (t.children.map Tree.id)).render 0 =
      template t.kind (t.parameters.map literalText) ((t.children.map Tree.id).map nodeName) := by
  cases t with
  | terminal id op => exact render_terminal op
  | unary id op a => exact render_unary op a.id
  | binary id op a b => exact render_binary op a.id b.id
  | ternary id op a b c => exact render_ternary op a.id b.id c.id

/-- The term of a node computes from the names of the children, and of all of them. -/
theorem mem_names_nodeTerm {t : Tree} {name : String} :
    name ∈ (nodeTerm t.kind t.parameters (t.children.map Tree.id)).names ↔
      name ∈ (t.children.map Tree.id).map nodeName := by
  cases t with
  | terminal id op => cases op <;> exact Iff.rfl
  | unary id op a => cases op <;> exact Iff.rfl
  | binary id op a b =>
    cases op with
    | sum | mult => exact Iff.rfl
    | mod =>
      show name ∈ [nodeName a.id, nodeName b.id, nodeName b.id, nodeName a.id, nodeName b.id] ↔
        name ∈ [nodeName a.id, nodeName b.id]
      simp only [List.mem_cons, List.not_mem_nil, or_false]
      tauto
  | ternary id op a b c =>
    cases op with
    | triple => exact Iff.rfl
    | mix =>
      show name ∈ [nodeName b.id, nodeName c.id, nodeName a.id] ↔
        name ∈ [nodeName a.id, nodeName b.id, nodeName c.id]
      simp only [List.mem_cons, List.not_mem_nil, or_false]
      tauto
    | level threshold =>
      show name ∈ [nodeName c.id, nodeName b.id, nodeName a.id] ↔
        name ∈ [nodeName a.id, nodeName b.id, nodeName c.id]
      simp only [List.mem_cons, List.not_mem_nil, or_false]
      tauto

/-! ### Lines -/

/-- A line of code: a name, and the expression whose value it is given in `[-1, 1]`. -/
structure Line where
  name : String
  expression : String

/-- The text of a line. -/
def Line.text (l : Line) : String :=
  s!"    let {l.name}: vec3<f32> = clamp({l.expression}, vec3<f32>(-1.0), vec3<f32>(1.0));"

/-- The line of a value of some kind. -/
def Line.of (id : Nat) (kind : Kind) (parameters : List Float32) (operands : List Nat) : Line :=
  ⟨nodeName id, template kind (parameters.map literalText) (operands.map nodeName)⟩

end Shader

open Shader

/-- The line of the root of a tree. -/
def Tree.line (t : Tree) : Line := .of t.id t.kind t.parameters (t.children.map Tree.id)

/-- The lines of a tree, one for each node. -/
def Tree.lines (t : Tree) : List Line := t.nodes.map Tree.line

/-- The lines of a program, one for each instruction, a value being named after its register. -/
def Program.lines (p : Program) : List Line :=
  p.instructions.toList.mapIdx fun i ins => .of i ins.kind (p.parametersOf ins) ins.operands

namespace Shader

theorem code_eq_map_nodes (t : Tree) : t.code = t.nodes.map fun s =>
    nodeStatement s.id s.kind s.parameters (s.children.map Tree.id) := by
  induction t using Tree.induct with
  | step t ih =>
    rw [code_eq, Tree.nodes_eq, List.map_append, List.map_flatMap, List.flatMap_congr ih]
    rfl

theorem render_nodeStatement (t : Tree) :
    (nodeStatement t.id t.kind t.parameters (t.children.map Tree.id)).render =
      t.line.text ++ "\n" := by
  have hvalue : (nodeStatement t.id t.kind t.parameters (t.children.map Tree.id)).value.render 0 =
      s!"clamp({t.line.expression}, vec3<f32>(-1.0), vec3<f32>(1.0))" := by
    obtain ⟨-, -, hone, -⟩ := literalText_constants
    simp only [nodeStatement, splat, render_call₃, render_nodeTerm, Term.render, hone]
    simp [Tree.line, Line.of, ← String.toList_inj, Function.text, toString]
  rw [Statement.render, hvalue, Line.text]
  simp [← String.toList_inj, toString, nodeStatement, Tree.line, Line.of]

/-- **The code of a tree is its lines.** -/
theorem codeText_eq (t : Tree) :
    t.codeText = String.join (t.lines.map fun l => l.text ++ "\n") := by
  rw [Tree.codeText, code_eq_map_nodes, Tree.lines, List.map_map, List.map_map]
  exact congrArg String.join (List.map_congr_left fun s _ => render_nodeStatement s)

/-- What is used on the line of a node is the names of its children. -/
theorem nodeWords_expression (t : Tree) :
    nodeWords t.line.expression.toList =
      (nodeTerm t.kind t.parameters (t.children.map Tree.id)).names := by
  rw [← nodeWords_render _ 0, render_nodeTerm]
  rfl

theorem toList_text (l : Line) :
    l.text.toList = "    let".toList ++ ' ' :: (l.name.toList ++ ':' ::
      (" vec3<f32> = clamp".toList ++ '(' :: (l.expression.toList ++ ',' ::
        " vec3<f32>(-1.0), vec3<f32>(1.0));".toList))) := by
  simp [Line.text, toString]

theorem nodeWords_text (t : Tree) :
    nodeWords t.line.text.toList = t.line.name :: nodeWords t.line.expression.toList := by
  have hbefore : nodeWords "    let".toList = [] := by decide
  have hbetween : nodeWords " vec3<f32> = clamp".toList = [] := by decide
  have hbehind : nodeWords " vec3<f32>(-1.0), vec3<f32>(1.0));".toList = [] := by decide
  have hname : nodeWords t.line.name.toList = [t.line.name] := nodeWords_nodeName t.id
  rw [toList_text, nodeWords_append_cons rfl, nodeWords_append_cons rfl, nodeWords_append_cons rfl,
    nodeWords_append_cons rfl, hbefore, hbetween, hbehind, hname]
  simp

theorem newline_not_mem_text (t : Tree) : '\n' ∉ t.line.text.toList := by
  have hname : '\n' ∉ t.line.name.toList := newline_not_mem_render (.node t.id) 0
  have hexpression : '\n' ∉ t.line.expression.toList := by
    have hterm := newline_not_mem_render
      (nodeTerm t.kind t.parameters (t.children.map Tree.id)) 0
    rwa [render_nodeTerm] at hterm
  simp [toList_text, hname, hexpression]

/-! ### Lines of a tree and of its program -/

variable {t : Tree}

theorem ids_eq_map_nodes (t : Tree) : t.ids = t.nodes.map Tree.id := by
  rw [Tree.ids, Tree.postOrder_eq, List.map_map]
  rfl

theorem names_lines (t : Tree) : t.lines.map Line.name = t.ids.map nodeName := by
  rw [Tree.lines, ids_eq_map_nodes, List.map_map, List.map_map]
  rfl

/-- In post-order, the place of a node is its identifier. -/
theorem id_eq_of_getElem? (h : t.ids = List.range t.nodeCount) {i : Nat} {s : Tree}
    (hs : t.nodes[i]? = some s) : s.id = i := by
  have hid : t.ids[i]? = some s.id := by
    rw [ids_eq_map_nodes, List.getElem?_map, hs]
    rfl
  rw [h] at hid
  obtain ⟨hi, hget⟩ := List.getElem?_eq_some_iff.mp hid
  rw [List.getElem_range] at hget
  exact hget.symm

/-- In post-order, the registers of the children are their identifiers. -/
theorem operands_eq_ids (h : t.ids = List.range t.nodeCount) {i : Nat} {s : Tree}
    {ins : Instruction} (hencodes : Program.Encodes t.nodes i s ins) :
    ins.operands = s.children.map Tree.id := by
  refine List.ext_getElem? fun k => ?_
  have hchild := congrArg (·[k]?) hencodes.operands_eq
  simp only [List.getElem?_map] at hchild ⊢
  cases hoperand : ins.operands[k]? with
  | none =>
    rw [hoperand] at hchild
    rw [Option.map_eq_none_iff.mp hchild.symm]
    rfl
  | some r =>
    rw [hoperand] at hchild
    obtain ⟨c, hc, hnode⟩ := Option.map_eq_some_iff.mp hchild.symm
    rw [hc, Option.map_some, id_eq_of_getElem? h hnode.symm]

/-- **If the nodes are numbered in post-order, the lines of a tree are those of its program.** -/
theorem lines_lower (h : t.ids = List.range t.nodeCount) : t.lines = t.lower.lines := by
  have hlayout := t.layout_lower
  refine List.ext_getElem? fun i => ?_
  have hget : t.lower.instructions.toList[i]? = t.lower.instructions[i]? := Array.getElem?_toList
  rw [Tree.lines, Program.lines, List.getElem?_map, List.getElem?_mapIdx, hget]
  cases hnode : t.nodes[i]? with
  | none =>
    have hsize : t.lower.instructions.size ≤ i := by
      rw [List.getElem?_eq_none_iff, ← hlayout.size_eq] at hnode
      exact hnode
    rw [Array.getElem?_eq_none hsize]
    rfl
  | some s =>
    obtain ⟨ins, hins, hencodes⟩ := hlayout.encodes i s hnode
    rw [hins, Option.map_some, Option.map_some, Tree.line, id_eq_of_getElem? h hnode,
      hencodes.kind_eq, (hlayout.parametersOf_eq hnode hencodes).1, operands_eq_ids h hencodes]

/-- Every name is bound on one line, and used on later ones only. -/
structure Ordered (lines : List Line) : Prop where
  distinct : (lines.map Line.name).Nodup
  earlier : ∀ (i : Nat) (l : Line), lines[i]? = some l →
    ∀ name ∈ nodeWords l.expression.toList, ∃ j < i, (lines.map Line.name)[j]? = some name

/-- Children stand before their parents, so their names are bound already. -/
theorem ordered_lines (h : t.ids.Nodup) : Ordered t.lines where
  distinct := by
    rw [names_lines]
    exact h.map fun _ _ => nodeName_injective
  earlier := by
    intro i l hl name hname
    obtain ⟨s, hs, rfl⟩ := Option.map_eq_some_iff.mp (by rwa [Tree.lines, List.getElem?_map] at hl)
    rw [nodeWords_expression, mem_names_nodeTerm, List.map_map] at hname
    obtain ⟨c, hc, rfl⟩ := List.mem_map.mp hname
    obtain ⟨ins, -, hencodes⟩ := t.layout_lower.encodes i s hs
    have hregister : some c ∈ ins.operands.map (t.nodes[·]?) := by
      rw [hencodes.operands_eq]
      exact List.mem_map_of_mem hc
    obtain ⟨r, hr, hnode⟩ := List.mem_map.mp hregister
    refine ⟨r, hencodes.operands_lt r hr, ?_⟩
    rw [Tree.lines, List.getElem?_map, List.getElem?_map, hnode]
    rfl

/-- **The code of a tree mirrors the program that it is lowered to.**  It is written behind the
text that is there, one line for each node, and its words that can be names of nodes are the bound
name and the used ones.  If the nodes are numbered in post-order, as those of every tree are that
is read from a text or derived from a grammar, then the lines are those of the program, instruction
by instruction, and the color has the name of the last one.  If no two nodes have the same
identifier, each name is bound once, and used on later lines only. -/
theorem code_mirrors_program (tree : Tree) (text : String) :
    tree.appendCode text =
        (text ++ String.join (tree.lines.map fun l => l.text ++ "\n"), nodeName tree.id) ∧
      tree.lines.length = tree.nodeCount ∧
      (∀ l ∈ tree.lines, '\n' ∉ l.text.toList ∧
        nodeWords l.text.toList = l.name :: nodeWords l.expression.toList) ∧
      (tree.ids = List.range tree.nodeCount → tree.lines = tree.lower.lines ∧
        tree.lower.size = tree.nodeCount ∧ tree.id = tree.nodeCount - 1) ∧
      (tree.ids.Nodup → tree.lines.map Line.name = tree.ids.map nodeName ∧ Ordered tree.lines) ∧
      (∀ source, Expression.parse source = .ok tree → tree.ids = List.range tree.nodeCount) ∧
      ∀ (σ : Type) [RandomSource σ] (g : Grammar) start depth (source source' : σ) nodes,
        g.derive start depth source = (.ok ⟨tree, nodes⟩, source') →
          tree.ids = List.range tree.nodeCount := by
  have hlayout := tree.layout_lower
  have hsize : tree.lower.size = tree.nodeCount := hlayout.size_eq.trans tree.nodeCount_eq.symm
  refine ⟨?_, ?_, ?_, fun hids => ⟨lines_lower hids, hsize, ?_⟩,
    fun hids => ⟨names_lines tree, ordered_lines hids⟩, ?_, ?_⟩
  · rw [← codeText_eq]
    rfl
  · rw [Tree.lines, List.length_map, ← tree.nodeCount_eq]
  · exact List.forall_mem_map.mpr fun s _ => ⟨newline_not_mem_text s, nodeWords_text s⟩
  · have hroot : tree.nodes[tree.lower.result]? = some tree := Tree.getElem?_result [] hlayout
    rw [Program.result, hsize] at hroot
    exact id_eq_of_getElem? hids hroot
  · exact fun source hparse => (Expression.parse_eq_ok_iff_denotes.mp hparse).2.2
  · intro σ _ g start depth source source' nodes hderive
    unfold Grammar.derive at hderive
    split at hderive
    · cases hderive
    · obtain ⟨t, between, -, heq⟩ := Derivation.andThen_eq_ok_iff.mp hderive
      cases heq
      exact t.ids_numbered

/-- The remainder of the first coordinate and a negative constant. -/
theorem code_mirrors_program_mod : ∃ tree : Tree,
    tree = .binary 2 .mod (.terminal 0 .x) (.terminal 1 (.bw (-0.5))) ∧
      tree.ids = List.range tree.nodeCount ∧ tree.ids.Nodup ∧
      tree.lines = tree.lower.lines ∧ Ordered tree.lines ∧
      tree.appendCode "" =
        ("" ++ String.join (tree.lower.lines.map fun l => l.text ++ "\n"), nodeName 2) ∧
      tree.lines[1]?.map Line.text =
        some "    let n1: vec3<f32> = clamp(vec3<f32>((-0.5)), vec3<f32>(-1.0), vec3<f32>(1.0));" := by
  let tree : Tree := .binary 2 .mod (.terminal 0 .x) (.terminal 1 (.bw (-0.5)))
  have hids : tree.ids = List.range tree.nodeCount := by decide
  have hnodup : tree.ids.Nodup := by decide
  obtain ⟨hcode, -, -, hlines, hordered, -⟩ := code_mirrors_program tree ""
  obtain ⟨heq, -, -⟩ := hlines hids
  rw [heq] at hcode
  exact ⟨tree, rfl, hids, hnodup, heq, (hordered hnodup).2, hcode, by decide⟩

end Shader

end GrammarArt
