import GrammarArt.Proofs.Expression.Rendering
import GrammarArt.Proofs.Shader.Evaluation
import GrammarArt.Proofs.Tree.Numbering

/-! # Executing shader code

The statements of a tree give the name of every node its color (`executes`), as long as no
two nodes have the same identifier: a statement finds the names of the children bound by the
statements before it, and no later statement binds a name again.

So the code of a tree computes the color of the tree (`appendCode_computes_eval`).
-/
namespace GrammarArt.Shader

open GrammarArt.Shader.Language
open Binary32

/-! ### Names -/

theorem nodeName_injective {id id' : Nat} (h : nodeName id = nodeName id') : id = id' := by
  have hdigits := congrArg (fun s : String => s.toList.tail) h
  simp only [toList_nodeName, List.tail_cons] at hdigits
  rw [← digitsValue_toDigits id, hdigits, digitsValue_toDigits]

theorem ne_nodeName {name : String} (h : name.toList.head? ≠ some 'n') (id : Nat) :
    name ≠ nodeName id := by
  rintro rfl
  rw [toList_nodeName] at h
  exact h rfl

/-! ### Statements and nodes -/

variable {t : Tree} {ts : List Tree} {point : Point} {feed : Feed} {env env' : Environment}

theorem code_eq (t : Tree) : t.code = t.children.flatMap Tree.code ++
    [nodeStatement t.id t.kind t.parameters (t.children.map Tree.id)] := by
  have hroot : ∀ c : Tree, c.codeAndRoot.2 = c.id := fun c => by
    rw [Tree.codeAndRoot, Tree.fold_eq]
  have hroots : t.children.map (fun c => c.codeAndRoot.2) = t.children.map Tree.id :=
    List.map_congr_left fun c _ => hroot c
  rw [Tree.code, Tree.codeAndRoot, Tree.fold_eq, List.map_map, List.flatMap_map]
  exact congrArg (fun ids => _ ++ [nodeStatement t.id t.kind t.parameters ids]) hroots

/-! ### Literals -/

theorem finite_terminal {op : Terminal} (h : ∀ n ∈ op.parameters, n.isFinite = true) :
    (nodeTerm op.kind op.parameters []).Finite := by
  cases op with
  | x | y | t | var k => exact trivial
  | bw value =>
    simp only [Terminal.parameters, List.forall_mem_singleton] at h
    exact h
  | rgb red green blue =>
    simp only [Terminal.parameters, List.forall_mem_cons] at h
    exact ⟨h.1, h.2.1, h.2.2.1⟩

theorem finite_unary {op : Unary} (h : ∀ n ∈ op.parameters, n.isFinite = true) (id : Nat) :
    (nodeTerm op.kind op.parameters [id]).Finite := by
  cases op with
  | sin frequency phase | cos frequency phase | tan frequency phase =>
    simp only [Unary.parameters, List.forall_mem_cons] at h
    exact ⟨⟨trivial, h.1⟩, h.2.1⟩
  | exp =>
    obtain ⟨hleast, hmost⟩ := isFinite_expRange
    exact ⟨⟨⟨rfl, trivial, hleast⟩, hmost, hleast⟩, rfl⟩
  | sqrt => exact ⟨⟨⟨⟨⟨trivial, rfl⟩, isFinite_half⟩, rfl⟩, rfl⟩, rfl⟩

theorem finite_binary (op : Binary) (id id' : Nat) :
    (nodeTerm op.kind op.parameters [id, id']).Finite := by
  cases op with
  | sum => exact ⟨⟨trivial, trivial⟩, isFinite_half⟩
  | mult => exact ⟨trivial, trivial⟩
  | mod => exact ⟨⟨trivial, trivial, rfl, trivial, rfl⟩, trivial, trivial, rfl⟩

theorem finite_ternary {op : Ternary} (h : ∀ n ∈ op.parameters, n.isFinite = true)
    (id id' id'' : Nat) : (nodeTerm op.kind op.parameters [id, id', id'']).Finite := by
  cases op with
  | mix => exact ⟨trivial, trivial, ⟨trivial, rfl⟩, isFinite_half⟩
  | level threshold =>
    simp only [Ternary.parameters, List.forall_mem_singleton] at h
    exact ⟨trivial, trivial, trivial, h⟩
  | triple => exact ⟨trivial, trivial, trivial⟩

theorem finite_nodeStatement (h : ∀ n ∈ t.parameters, n.isFinite = true) :
    (nodeStatement t.id t.kind t.parameters (t.children.map Tree.id)).value.Finite := by
  refine ⟨?_, rfl, rfl⟩
  cases t with
  | terminal id op => exact finite_terminal h
  | unary id op a => exact finite_unary h a.id
  | binary id op a b => exact finite_binary op a.id b.id
  | ternary id op a b c => exact finite_ternary h a.id b.id c.id

/-- A tree with finite parameters has finite literals in its code. -/
theorem finite_code (h : t.FiniteParameters) : ∀ s ∈ t.code, s.value.Finite := by
  induction t using Tree.induct with
  | step t ih =>
    obtain ⟨hparameters, hchildren⟩ := Tree.finiteParameters_iff.mp h
    rw [code_eq, List.forall_mem_append, List.forall_mem_singleton]
    refine ⟨fun s hs => ?_, finite_nodeStatement hparameters⟩
    obtain ⟨c, hc, hmem⟩ := List.mem_flatMap.mp hs
    exact ih c hc (hchildren c hc) s hmem

/-! ### Running code -/

/-- The names that are bound after some statements. -/
def execute (env : Environment) (ss : List Statement) : Option Environment :=
  (ss.map Statement.binding).foldlM Binding.execute env

theorem execute_append (env : Environment) (ss ss' : List Statement) :
    execute env (ss ++ ss') = (execute env ss).bind fun env' => execute env' ss' := by
  rw [execute, List.map_append, List.foldlM_append]
  rfl

/-- A statement with a vector as its value binds a name that was free. -/
theorem execute_singleton {s : Statement} {color : Color} (hfree : env (nodeName s.id) = none)
    (hvalue : Evaluates env s.value (.vector color)) :
    execute env [s] = some (bound env (nodeName s.id) (.vector color)) := by
  have hread : s.binding.value.eval env = some (.vector color) := hvalue
  have hname : env s.binding.name = none := hfree
  have hstep : s.binding.execute env = some (bound env (nodeName s.id) (.vector color)) := by
    rw [Binding.execute, hread]
    simp only [Option.bind_eq_bind, Option.bind_some, hname]
    exact if_pos rfl
  rw [execute, List.map_singleton, List.foldlM_cons, hstep]
  rfl

/-- The names of some nodes are bound to their colors, and no other name is bound again. -/
structure Binds (point : Point) (feed : Feed) (ts : List Tree) (env env' : Environment) :
    Prop where
  color_eq : ∀ t ∈ ts, env' (nodeName t.id) = some (.vector (t.eval point feed))
  kept : ∀ name, (∀ id ∈ ts.flatMap Tree.ids, name ≠ nodeName id) → env' name = env name

/-- The code of a tree binds its names, where they are free. -/
def Executes (point : Point) (feed : Feed) (ts : List Tree) : Prop :=
  ∀ env, Provides env point feed [] → (∀ id ∈ ts.flatMap Tree.ids, env (nodeName id) = none) →
    ∃ env', execute env (ts.flatMap Tree.code) = some env' ∧ Binds point feed ts env env'

theorem Binds.provides (h : Binds point feed ts env env') (henv : Provides env point feed []) :
    Provides env' point feed ts where
  point_eq := (h.kept pointName fun id _ => ne_nodeName (by decide) id).trans henv.point_eq
  feed_eq := (h.kept paramsName fun id _ => ne_nodeName (by decide) id).trans henv.feed_eq
  color_eq := h.color_eq

theorem Provides.of_nil {ts : List Tree} (h : Provides env point feed ts) :
    Provides env point feed [] := ⟨h.point_eq, h.feed_eq, nofun⟩

theorem id_mem_ids (t : Tree) : t.id ∈ t.ids := by
  rw [Tree.ids_eq]
  exact List.mem_append_right _ List.mem_cons_self

/-- The code of trees with different identifiers, one tree after the other. -/
theorem executes_flatMap (hids : (ts.flatMap Tree.ids).Nodup)
    (h : ∀ t ∈ ts, Executes point feed [t]) : Executes point feed ts := by
  induction ts with
  | nil => exact fun env _ _ => ⟨env, rfl, nofun, fun _ _ => rfl⟩
  | cons t ts ih =>
    rw [List.flatMap_cons, List.nodup_append] at hids
    obtain ⟨-, hids', hdisjoint⟩ := hids
    obtain ⟨ht, hts⟩ := List.forall_mem_cons.mp h
    intro env henv hfree
    rw [List.flatMap_cons, List.forall_mem_append] at hfree
    obtain ⟨env₁, hrun, hbinds⟩ := ht env henv (by simpa using hfree.1)
    have hfree' : ∀ id ∈ ts.flatMap Tree.ids, env₁ (nodeName id) = none := by
      intro id hid
      rw [hbinds.kept _ fun id' hid' heq => ?_]
      · exact hfree.2 id hid
      · exact hdisjoint id' (by simpa using hid') id hid (nodeName_injective heq).symm
    obtain ⟨env₂, hrun', hbinds'⟩ := ih hids' hts env₁ (hbinds.provides henv).of_nil hfree'
    refine ⟨env₂, ?_, ?_, ?_⟩
    · rw [List.flatMap_singleton] at hrun
      rw [List.flatMap_cons, execute_append, hrun]
      exact hrun'
    · refine List.forall_mem_cons.mpr ⟨?_, hbinds'.color_eq⟩
      rw [hbinds'.kept _ fun id hid heq => ?_]
      · exact hbinds.color_eq t List.mem_cons_self
      · exact hdisjoint t.id (id_mem_ids t) id hid (nodeName_injective heq)
    · intro name hname
      rw [List.flatMap_cons, List.forall_mem_append] at hname
      rw [hbinds'.kept name hname.2, hbinds.kept name (by simpa using hname.1)]

/-- **The code of a tree binds the name of every root of a subtree to its color.** -/
theorem executes (hids : t.ids.Nodup) (hfinite : t.FiniteParameters) :
    Executes point feed [t] := by
  induction t using Tree.induct with
  | step t ih =>
    obtain ⟨hparameters, hchildren⟩ := Tree.finiteParameters_iff.mp hfinite
    rw [Tree.ids_eq, List.nodup_append] at hids
    obtain ⟨hids', -, hdisjoint⟩ := hids
    have hchild : ∀ c ∈ t.children, c.ids.Nodup := (List.nodup_flatMap.mp hids').1
    have hforest : Executes point feed t.children :=
      executes_flatMap hids' fun c hc => ih c hc (hchild c hc) (hchildren c hc)
    intro env henv hfree
    rw [List.flatMap_singleton] at hfree ⊢
    rw [Tree.ids_eq, List.forall_mem_append, List.forall_mem_singleton] at hfree
    obtain ⟨env₁, hrun, hbinds⟩ := hforest env henv hfree.1
    have hprovides := hbinds.provides henv
    have hvalue := evaluates_nodeStatement hprovides hparameters
    have hroot : env₁ (nodeName t.id) = none := by
      rw [hbinds.kept _ fun id hid heq => ?_]
      · exact hfree.2
      · exact hdisjoint id hid t.id List.mem_cons_self (nodeName_injective heq).symm
    refine ⟨bound env₁ (nodeName t.id) (.vector (t.eval point feed)), ?_, ?_, ?_⟩
    · rw [code_eq, execute_append, hrun]
      exact execute_singleton hroot hvalue
    · exact List.forall_mem_singleton.mpr (if_pos rfl)
    · intro name hname
      rw [List.flatMap_singleton, Tree.ids_eq, List.forall_mem_append,
        List.forall_mem_singleton] at hname
      exact (if_neg hname.2).trans (hbinds.kept name hname.1)

theorem provides_arguments (point : Point) (feed : Feed) :
    Provides (arguments point feed) point feed [] := ⟨rfl, rfl, nofun⟩

theorem arguments_nodeName (point : Point) (feed : Feed) (id : Nat) :
    arguments point feed (nodeName id) = none := by
  have hpoint : nodeName id ≠ pointName := (ne_nodeName (by decide) id).symm
  have hparams : nodeName id ≠ paramsName := (ne_nodeName (by decide) id).symm
  rw [arguments, if_neg hpoint, if_neg hparams]

/-- **The code that is appended for a tree computes its color.**  If no two nodes have the same
identifier and all parameters are finite, the appended text is read as statements, these can
all be executed in order, and then the name that is returned stands for the color of the tree
at the point. -/
theorem appendCode_computes_eval {tree : Tree} (hids : tree.ids.Nodup)
    (hfinite : tree.FiniteParameters) (point : Point) (feed : Feed) (text : String) :
    ∃ code env, (tree.appendCode text).1 = text ++ code ∧
      run? (arguments point feed) code = some env ∧
      env (tree.appendCode text).2 = some (.vector (tree.eval point feed)) := by
  obtain ⟨env, hrun, hbinds⟩ := executes hids hfinite (arguments point feed)
    (provides_arguments point feed) fun id _ => arguments_nodeName point feed id
  rw [List.flatMap_singleton] at hrun
  refine ⟨tree.codeText, env, rfl, ?_, hbinds.color_eq tree List.mem_cons_self⟩
  rw [run?, read?_codeText (finite_code hfinite)]
  exact hrun

/-- The remainder of the first coordinate and a negative constant, the nodes being numbered in no
order. -/
theorem appendCode_computes_eval_mod : ∃ tree : Tree,
    tree = .binary 1 .mod (.terminal 12 .x) (.terminal 3 (.bw (-0.5))) ∧ tree.ids.Nodup ∧
      tree.FiniteParameters ∧ ∃ code env, (tree.appendCode "").1 = "" ++ code ∧
        run? (arguments ⟨0.75, 0, 0⟩ .none) code = some env ∧
        env (tree.appendCode "").2 = some (.vector (tree.eval ⟨0.75, 0, 0⟩ .none)) := by
  have hids : (Tree.binary 1 .mod (.terminal 12 .x) (.terminal 3 (.bw (-0.5)))).ids.Nodup := by
    decide
  have hfinite : (Tree.binary 1 .mod (.terminal 12 .x)
      (.terminal 3 (.bw (-0.5)))).FiniteParameters := by
    have hvalue : ∀ n ∈ [(-0.5 : Float32)], n.isFinite = true := by decide
    refine ⟨nofun, fun finite h => ?_⟩
    rcases List.mem_cons.mp h with rfl | h
    · exact ⟨nofun, nofun⟩
    · rw [List.mem_singleton.mp h]
      exact ⟨hvalue, nofun⟩
  exact ⟨_, rfl, hids, hfinite, appendCode_computes_eval hids hfinite _ _ _⟩

end GrammarArt.Shader
