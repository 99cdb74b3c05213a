import GrammarArt.Proofs.Derivation.Canonical
import GrammarArt.Proofs.Tree.Numbering

/-! # Derivation as a plain recursion

A derivation is defined by recursion on the depth that is left, and its tree is numbered when it
is complete.  Here it is described without either device (`recurse`): a recursion that goes on at
depth zero as at any other depth, and takes each identifier from a counter when it makes a node.
Nothing in it says that it ends, so it is given a number of calls that may be nested, and has no
result if these are not enough.  If the terminal symbol could stand for itself, for instance, no
number would be.

For a compiled grammar the recursion ends, with the result of `Grammar.derive`, whenever more
calls may be nested than there is depth (`deriveByRecursion_eq`).  The reason is what compiling
checks of the terminal symbol: at depth zero only nodes without children are made.  And since the
counter is passed from one subtree to the next, the identifiers that it gives out are those of
the complete tree, numbered in post-order (`agrees_recurse`).
-/
namespace GrammarArt

open RandomSource

/-! ### The recursion -/

/-- A computation that can fail, or have no result.  It keeps a source and the number of
identifiers given out so far. -/
abbrev Recursion (σ α : Type) := ExceptT DerivationError (StateT (σ × Nat) Option) α

namespace Recursion

variable {σ α : Type}

/-- What is drawn, the identifiers left alone. -/
def draw (drawing : Derivation.Drawing σ α) : Recursion σ α := fun (source, count) =>
  let (result, source) := drawing source
  some (result, source, count)

/-- The next identifier. -/
def allocate : Recursion σ Nat := fun (source, count) => some (.ok count, source, count + 1)

theorem bind_of_ok {β : Type} {first : Recursion σ α} {next : α → Recursion σ β} {a : α}
    {state between : σ × Nat} (h : first state = some (.ok a, between)) :
    (first >>= next) state = next a between := by
  show Option.bind (first state) _ = _
  rw [h]
  rfl

end Recursion

namespace Derivation

variable {σ : Type} [RandomSource σ]

/-- The production that a symbol is expanded by.  At depth zero it is any one of the terminal
symbol, in a grammar that has it. -/
def choose (g : Grammar) (symbol : String) (depth : Nat) : Drawing σ Production :=
  if depth = 0 then
    if g.declares Grammar.terminalSymbol then pick g Grammar.terminalSymbol fun _ => true
    else pick g symbol Production.isTerminal
  else pick g symbol fun _ => true

/-- A node with the next identifier, its parameters filled. -/
def makeNode (kind : Kind) (literals : List Float32) (children : List Tree) :
    Recursion σ Tree := do
  let parameters ← Recursion.draw fun source =>
    let (values, source) := fillParameters kind.parameters literals source
    (.ok values, source)
  let id ← Recursion.allocate
  match Tree.make id kind children parameters with
  | .ok tree => pure tree
  | .error e => throw (.shape e)

/-- A tree for a symbol, made with calls that are nested up to a number. -/
def recurse (g : Grammar) : (calls : Nat) → String → (depth : Nat) → Recursion σ Tree
  | 0, _, _ => fun _ => none
  | calls + 1, symbol, depth => do
    let production ← Recursion.draw (choose g symbol depth)
    match production.target with
    | .alias next => recurse g calls next (depth - 1)
    | .node kind =>
      let children ← production.symbols.mapM fun child => recurse g calls child (depth - 1)
      makeNode kind production.literals children

end Derivation

/-- What the recursion derives, with the number of identifiers given out. -/
def Grammar.deriveByRecursion {σ : Type} [RandomSource σ] (g : Grammar) (calls : Nat)
    (start : String) (depth : Nat) (source : σ) :
    Option (Except DerivationError Derivation × σ) :=
  if Derivation.maxDepth < depth then
    some (.error (.depthLimit depth Derivation.maxDepth), source)
  else
    (Derivation.recurse g calls start depth (source, 0)).map fun (result, source, count) =>
      (result.map fun root => ⟨root, count⟩, source)

/-! ### Nodes and their parts -/

namespace Tree

/-- Parts of the right number make a node. -/
theorem exists_make {kind : Kind} {children : List Tree} {parameters : List Float32} (id : Nat)
    (hchildren : children.length = kind.arity)
    (hparameters : parameters.length = kind.parameters.length) :
    ∃ t, make id kind children parameters = .ok t := by
  have hparts : ∃ t, ofParts? id kind children parameters = some t := by
    cases kind with
    | x | y | t | var _ =>
      obtain rfl := List.length_eq_zero_iff.mp hchildren
      obtain rfl := List.length_eq_zero_iff.mp hparameters
      exact ⟨_, rfl⟩
    | bw =>
      obtain rfl := List.length_eq_zero_iff.mp hchildren
      obtain ⟨v, rfl⟩ := List.length_eq_one_iff.mp hparameters
      exact ⟨_, rfl⟩
    | rgb =>
      obtain rfl := List.length_eq_zero_iff.mp hchildren
      obtain ⟨red, green, blue, rfl⟩ := List.length_eq_three.mp hparameters
      exact ⟨_, rfl⟩
    | sin | cos | tan =>
      obtain ⟨a, rfl⟩ := List.length_eq_one_iff.mp hchildren
      obtain ⟨frequency, phase, rfl⟩ := List.length_eq_two.mp hparameters
      exact ⟨_, rfl⟩
    | exp | sqrt =>
      obtain ⟨a, rfl⟩ := List.length_eq_one_iff.mp hchildren
      obtain rfl := List.length_eq_zero_iff.mp hparameters
      exact ⟨_, rfl⟩
    | sum | mult | mod =>
      obtain ⟨a, b, rfl⟩ := List.length_eq_two.mp hchildren
      obtain rfl := List.length_eq_zero_iff.mp hparameters
      exact ⟨_, rfl⟩
    | mix | triple =>
      obtain ⟨a, b, c, rfl⟩ := List.length_eq_three.mp hchildren
      obtain rfl := List.length_eq_zero_iff.mp hparameters
      exact ⟨_, rfl⟩
    | level =>
      obtain ⟨a, b, c, rfl⟩ := List.length_eq_three.mp hchildren
      obtain ⟨threshold, rfl⟩ := List.length_eq_one_iff.mp hparameters
      exact ⟨_, rfl⟩
  obtain ⟨t, ht⟩ := hparts
  refine ⟨t, ?_⟩
  rw [make, if_neg (not_not_intro hchildren), ht]

/-- Trees numbered one after the other. -/
def numberAllFrom (n : Nat) : List Tree → List Tree × Nat
  | [] => ([], n)
  | t :: ts =>
    let (t, n) := numberFrom n t
    let (ts, n) := numberAllFrom n ts
    (t :: ts, n)

/-- Numbering a tree numbers its children first, and then its root. -/
theorem numberFrom_parts (t : Tree) (n : Nat) :
    make (numberAllFrom n t.children).2 t.kind (numberAllFrom n t.children).1 t.parameters =
        .ok (numberFrom n t).1 ∧
      (numberFrom n t).2 = (numberAllFrom n t.children).2 + 1 := by
  rw [make_eq_ok_iff]
  cases t with
  | terminal _ _ | unary _ _ _ | binary _ _ _ _ | ternary _ _ _ _ _ =>
    exact ⟨⟨rfl, rfl, rfl, rfl⟩, rfl⟩

end Tree

namespace Derivation

variable {σ : Type}

/-! ### Agreement -/

/-- A recursion ends with the result of a drawing, after numbering it; the source is the same.
How many identifiers a failing recursion has given out does not matter. -/
inductive Agrees {α β : Type} (numbering : α → β × Nat) :
    Except DerivationError α × σ → Option (Except DerivationError β × σ × Nat) → Prop where
  | ok (a : α) (source : σ) :
    Agrees numbering (.ok a, source) (some (.ok (numbering a).1, source, (numbering a).2))
  | error (e : DerivationError) (source : σ) (count : Nat) :
    Agrees numbering (.error e, source) (some (.error e, source, count))

/-- What is drawn has no identifiers. -/
theorem agrees_draw {α : Type} (drawing : Drawing σ α) (source : σ) (n : Nat) :
    Agrees (fun a => (a, n)) (drawing source) (Recursion.draw drawing (source, n)) := by
  show Agrees _ _ (some ((drawing source).1, (drawing source).2, n))
  rcases drawing source with ⟨e | a, between⟩
  · exact .error e between n
  · exact .ok a between

theorem Agrees.andThen {α β γ δ : Type} {numbering : α → γ × Nat} {numbering' : β → δ × Nat}
    {drawing : Drawing σ α} {next : α → Drawing σ β} {recursion : Recursion σ γ}
    {continue' : γ → Recursion σ δ} {source : σ} {n : Nat}
    (hfirst : Agrees numbering (drawing source) (recursion (source, n)))
    (hnext : ∀ a between, drawing source = (.ok a, between) →
      Agrees numbering' (next a between) (continue' (numbering a).1 (between, (numbering a).2))) :
    Agrees numbering' (drawing.andThen next source) ((recursion >>= continue') (source, n)) := by
  unfold Drawing.andThen
  show Agrees _ _ (Option.bind (recursion (source, n)) _)
  generalize drawing source = result at hfirst hnext
  generalize recursion (source, n) = outcome at hfirst
  cases hfirst with
  | ok a between => exact hnext a between rfl
  | error e between count => exact .error e between count

/-- Trees for a list of symbols are numbered one after the other. -/
theorem agrees_mapM {expand : String → Drawing σ Tree} {recursion : String → Recursion σ Tree}
    (h : ∀ symbol (source : σ) n, Agrees (Tree.numberFrom n) (expand symbol source)
      (recursion symbol (source, n))) (symbols : List String) (source : σ) (n : Nat) :
    Agrees (Tree.numberAllFrom n) (expandAll expand symbols source)
      (symbols.mapM recursion (source, n)) := by
  induction symbols generalizing source n with
  | nil => exact .ok [] source
  | cons symbol symbols ih =>
    rw [expandAll, List.mapM_cons]
    refine (h symbol source n).andThen fun t between _ => ?_
    -- The counter stands where numbering the first tree has left it.
    refine (ih between (Tree.numberFrom n t).2).andThen fun ts between' _ => ?_
    exact .ok (t :: ts) between'

theorem length_of_expandAll {expand : String → Drawing σ Tree} {symbols : List String}
    {ts : List Tree} {source source' : σ}
    (h : expandAll expand symbols source = (.ok ts, source')) : ts.length = symbols.length := by
  induction symbols generalizing ts source with
  | nil =>
    cases h
    rfl
  | cons symbol symbols ih =>
    obtain ⟨t, between, -, hrest⟩ := andThen_eq_ok_iff.mp h
    obtain ⟨ts, between', hts, heq⟩ := andThen_eq_ok_iff.mp hrest
    cases heq
    rw [List.length_cons, List.length_cons, ih hts]

variable [RandomSource σ]

theorem length_fillParameters (parameters : List Parameter) (literals : List Float32)
    (source : σ) : (fillParameters parameters literals source).1.length = parameters.length := by
  induction parameters generalizing literals source with
  | nil => rfl
  | cons p parameters ih =>
    cases literals with
    | nil => exact congrArg (· + 1) (ih [] _)
    | cons literal literals => exact congrArg (· + 1) (ih literals _)

/-- A node with enough children is built, and numbered after them. -/
theorem agrees_makeNode {kind : Kind} {children : List Tree}
    (hchildren : children.length = kind.arity) (literals : List Float32) (source : σ) (n : Nat) :
    Agrees (Tree.numberFrom n) (buildNode kind literals children source)
      (makeNode kind literals (Tree.numberAllFrom n children).1
        (source, (Tree.numberAllFrom n children).2)) := by
  have hparameters := length_fillParameters kind.parameters literals source
  generalize hfill : fillParameters kind.parameters literals source = filled at hparameters
  obtain ⟨parameters, between⟩ := filled
  obtain ⟨t, ht⟩ := Tree.exists_make 0 hchildren hparameters
  have hbuild : buildNode kind literals children source = (.ok t, between) := by
    simp only [buildNode, hfill, ht]
  obtain ⟨-, rfl, rfl, rfl⟩ := Tree.make_eq_ok_iff.mp ht
  obtain ⟨hnumbered, hcount⟩ := t.numberFrom_parts n
  have hmake : makeNode t.kind literals (Tree.numberAllFrom n t.children).1
      (source, (Tree.numberAllFrom n t.children).2) =
        some (.ok (Tree.numberFrom n t).1, between, (Tree.numberFrom n t).2) := by
    have hdraw : Recursion.draw (fun source =>
          let (values, source) := fillParameters t.kind.parameters literals source
          (.ok values, source)) (source, (Tree.numberAllFrom n t.children).2) =
        some (.ok t.parameters, between, (Tree.numberAllFrom n t.children).2) := by
      simp only [Recursion.draw, hfill]
    rw [makeNode, Recursion.bind_of_ok hdraw, Recursion.bind_of_ok rfl, hnumbered, hcount]
    rfl
  rw [hbuild, hmake]
  exact .ok t between

variable {g : Grammar}

/-- All productions of the terminal symbol are fit to be chosen at depth zero. -/
theorem choose_zero (hg : g.WellFormed) (symbol : String) :
    (choose g symbol 0 : Drawing σ Production) =
      pick g (fallback g symbol) Production.isTerminal := by
  unfold choose fallback
  rw [if_pos rfl]
  by_cases hdeclares : g.declares Grammar.terminalSymbol = true
  · rw [if_pos hdeclares, if_pos hdeclares]
    unfold pick
    cases hps : g.productions? Grammar.terminalSymbol with
    | none => rfl
    | some ps =>
      obtain ⟨r, hr, hsymbol, rfl⟩ := Grammar.exists_rule_of_productions? hps
      have hterminal := (hg r hr).terminal hsymbol
      simp only [List.filter_eq_self.mpr hterminal, List.filter_true]
  · rw [if_neg hdeclares, if_neg hdeclares]

/-- **The recursion ends with the tree that a symbol is expanded to**, its nodes numbered. -/
theorem agrees_recurse (hg : g.WellFormed) {depth calls : Nat} (hcalls : depth < calls)
    (symbol : String) (source : σ) (n : Nat) :
    Agrees (Tree.numberFrom n) (expand g depth symbol source)
      (recurse g calls symbol depth (source, n)) := by
  induction depth generalizing calls symbol source n with
  | zero =>
    obtain ⟨calls, rfl⟩ : ∃ k, calls = k + 1 := Nat.exists_eq_add_one.mpr hcalls
    rw [expand, recurse, choose_zero hg]
    refine (agrees_draw _ source n).andThen fun p between hpick => ?_
    obtain ⟨hhas, hterminal⟩ := has_of_pick hpick
    unfold Production.isTerminal at hterminal
    rcases htarget : p.target with kind | next
    · -- A node without children, so nothing is left to go on with.
      simp only [htarget, decide_eq_true_eq] at hterminal
      have hsymbols : p.symbols = [] := by
        have hcount := ((hg.sound_of_has hhas).counts kind htarget).1
        exact List.eq_nil_of_length_eq_zero (hcount.trans hterminal)
      simp only [hsymbols, List.mapM_nil, pure_bind]
      have hnone : ([] : List Tree).length = kind.arity := hterminal.symm
      exact agrees_makeNode hnone _ _ n
    · rw [htarget] at hterminal
      cases hterminal
  | succ depth ih =>
    obtain ⟨calls, rfl⟩ : ∃ k, calls = k + 1 :=
      Nat.exists_eq_add_one.mpr (Nat.zero_lt_of_lt hcalls)
    have hdeeper := ih (Nat.lt_of_succ_lt_succ hcalls)
    rw [expand, recurse]
    refine (agrees_draw _ source n).andThen fun p between hpick => ?_
    obtain ⟨hhas, -⟩ := has_of_pick hpick
    rcases htarget : p.target with kind | next
    · -- Each child is one call deeper, and so is the depth that is left for it.
      simp only
      refine (agrees_mapM hdeeper p.symbols between n).andThen fun children between' hall => ?_
      have hcount := ((hg.sound_of_has hhas).counts kind htarget).1
      exact agrees_makeNode ((length_of_expandAll hall).trans hcount) _ _ _
    · exact hdeeper next between n

/-! ### No node is refused -/

omit [RandomSource σ] in
theorem andThen_ne_error {α β : Type} {first : Drawing σ α} {next : α → Drawing σ β}
    {e : DerivationError} {source : σ} (hfirst : (first source).1 ≠ .error e)
    (hnext : ∀ a between, first source = (.ok a, between) → (next a between).1 ≠ .error e) :
    (first.andThen next source).1 ≠ .error e := by
  intro herror
  rcases andThen_eq_error_iff.mp herror with hfailed | ⟨a, between, hresult, hfailed⟩
  · exact hfirst hfailed
  · exact hnext a between hresult hfailed

theorem pick_ne_shape (symbol : String) (eligible : Production → Bool) (error : Tree.ShapeError)
    (source : σ) : (pick g symbol eligible source).1 ≠ .error (.shape error) := by
  unfold pick
  split
  · exact nofun
  · simp only
    split
    · exact nofun
    · exact nofun

omit [RandomSource σ] in
theorem expandAll_ne_error {expand : String → Drawing σ Tree} {e : DerivationError}
    (h : ∀ symbol source, (expand symbol source).1 ≠ .error e) (symbols : List String)
    (source : σ) : (expandAll expand symbols source).1 ≠ .error e := by
  intro herror
  obtain ⟨symbol, -, between, hfailed⟩ := exists_of_expandAll_eq_error herror
  exact h symbol between hfailed

theorem buildNode_ne_error {kind : Kind} {children : List Tree}
    (hchildren : children.length = kind.arity) (literals : List Float32) (e : DerivationError)
    (source : σ) : (buildNode kind literals children source).1 ≠ .error e := by
  obtain ⟨t, ht⟩ := Tree.exists_make 0 hchildren (length_fillParameters _ literals source)
  simp only [buildNode, ht]
  exact nofun

/-- **Every node that is made has the shape of its kind.** -/
theorem expand_ne_shape (hg : g.WellFormed) (error : Tree.ShapeError) (depth : Nat)
    (symbol : String) (source : σ) :
    (expand g depth symbol source).1 ≠ .error (.shape error) := by
  induction depth generalizing symbol source with
  | zero =>
    refine andThen_ne_error (pick_ne_shape _ _ error source) fun p between hpick => ?_
    obtain ⟨-, hterminal⟩ := has_of_pick hpick
    rcases htarget : p.target with kind | next
    · have harity : kind.arity = 0 := by
        simpa [Production.isTerminal, htarget] using hterminal
      have hnone : ([] : List Tree).length = kind.arity := harity.symm
      exact buildNode_ne_error hnone _ _ _
    · exact nofun
  | succ depth ih =>
    refine andThen_ne_error (pick_ne_shape _ _ error source) fun p between hpick => ?_
    obtain ⟨hhas, -⟩ := has_of_pick hpick
    rcases htarget : p.target with kind | next
    · refine andThen_ne_error (expandAll_ne_error ih p.symbols between) fun children _ hall => ?_
      have hcount := ((hg.sound_of_has hhas).counts kind htarget).1
      exact buildNode_ne_error ((length_of_expandAll hall).trans hcount) _ _ _
    · exact ih next between

end Derivation

/-! ### Derivations -/

/-- Every node has as many children and parameters as its kind says. -/
def Tree.Shaped : Tree → Prop :=
  fold fun _ kind parameters children =>
    (children.length = kind.arity ∧ parameters.length = kind.parameters.length) ∧
      ∀ c ∈ children, c

theorem Tree.shaped (t : Tree) : t.Shaped := by
  induction t using induct with
  | step t ih =>
    rw [Shaped, fold_eq, List.length_map, List.forall_mem_map]
    exact ⟨⟨t.length_children, t.length_parameters⟩, ih⟩

/-- What is known of a derived tree. -/
structure Derivation.Bounded (depth : Nat) (d : Derivation) : Prop where
  depth_root : d.root.depth ≤ depth + 1
  depth_le : depth + 1 ≤ Tree.maxDepth
  /-- Children come before their parents, and no number is left out. -/
  ids : d.root.ids = List.range d.nodes
  nodes : d.nodes = d.root.nodeCount
  shaped : d.root.Shaped

namespace Grammar

variable {σ : Type} [RandomSource σ] {g : Grammar}

theorem deriveByRecursion_eq (hg : g.WellFormed) {depth calls : Nat} (hcalls : depth < calls)
    (start : String) (source : σ) :
    g.deriveByRecursion calls start depth source = some (g.derive start depth source) := by
  unfold deriveByRecursion derive
  by_cases hdepth : Derivation.maxDepth < depth
  · rw [if_pos hdepth, if_pos hdepth]
  · rw [if_neg hdepth, if_neg hdepth, Derivation.Drawing.andThen]
    have hagrees := Derivation.agrees_recurse hg hcalls start source 0
    generalize Derivation.expand g depth start source = result at hagrees
    generalize Derivation.recurse g calls start depth (source, 0) = outcome at hagrees
    cases hagrees with
    | ok t between =>
      have hcount := (t.numberFrom_numbers 0).2
      rw [Nat.zero_add] at hcount
      simp only [Option.map_some, Except.map, hcount, Tree.numbered]
    | error e between count => rfl

theorem bounded_of_derive {start : String} {depth : Nat} {source source' : σ}
    {d : GrammarArt.Derivation} (h : g.derive start depth source = (.ok d, source')) :
    d.Bounded depth := by
  unfold derive at h
  split at h
  · cases h
  · rename_i hdepth
    obtain ⟨t, between, hexpand, heq⟩ := Derivation.andThen_eq_ok_iff.mp h
    cases heq
    have hroot := Derivation.depth_of_expand hexpand
    refine ⟨?_, ?_, ?_, t.nodeCount_numbered.symm, t.numbered.shaped⟩
    · rwa [Tree.depth_numbered]
    · unfold Derivation.maxDepth Tree.maxDepth at hdepth
      unfold Tree.maxDepth
      omega
    · rw [Tree.ids_numbered, Tree.nodeCount_numbered]

/-- **Derivations end, within bounds.**  Whatever the grammar, the symbol to start from, the depth
and the source: the recursion ends with the derivation, and never nests more calls than the depth
and one; a depth that is too great is refused before anything is drawn; no node is ever refused;
and a derived tree is not too deep, numbered in post-order without gaps, and counted. -/
theorem derive_ends_bounded {text : String} (hg : compile text = .ok g) (start : String)
    (depth : Nat) (source : σ) :
    (∀ calls, depth < calls →
        g.deriveByRecursion calls start depth source = some (g.derive start depth source)) ∧
      (Derivation.maxDepth < depth → g.derive start depth source =
        (.error (.depthLimit depth Derivation.maxDepth), source)) ∧
      (∀ e, (g.derive start depth source).1 ≠ .error (.shape e)) ∧
      ∀ d source', g.derive start depth source = (.ok d, source') → d.Bounded depth := by
  have hwellFormed := compile_wellFormed hg
  refine ⟨fun calls hcalls => deriveByRecursion_eq hwellFormed hcalls start source,
    fun hdepth => ?_, fun e => ?_, fun d source' => bounded_of_derive⟩
  · rw [derive, if_pos hdepth]
  · unfold derive
    split
    · exact nofun
    · have hexpand := Derivation.expand_ne_shape hwellFormed e depth start source
      exact Derivation.andThen_ne_error hexpand fun t between _ => nofun

/-- A symbol that refers to itself, alone and twice; its alias uses up the last of the depth. -/
theorem derive_ends_bounded_self_reference :
    ∃ g : Grammar, compile "E :: E:1 | sum(E, E):1 | x:1" = .ok g ∧
      g.deriveByRecursion 3 "E" 2 (Replay.mk [0.5, 0, 0, 0.9] 0) =
        some (.ok ⟨.binary 2 .sum (.terminal 0 .x) (.terminal 1 .x), 3⟩, ⟨[0.5, 0, 0, 0.9], 4⟩) ∧
      Derivation.Bounded 2 ⟨.binary 2 .sum (.terminal 0 .x) (.terminal 1 .x), 3⟩ := by
  let g : Grammar :=
    ⟨⟨"E", [⟨.alias "E", [], 1⟩, ⟨.node .sum, [.symbol "E", .symbol "E"], 1⟩,
      ⟨.node .x, [], 1⟩]⟩, []⟩
  have hcompile : compile "E :: E:1 | sum(E, E):1 | x:1" = .ok g := by decide
  have hderive : g.derive "E" 2 (Replay.mk [0.5, 0, 0, 0.9] 0) =
      (.ok ⟨.binary 2 .sum (.terminal 0 .x) (.terminal 1 .x), 3⟩, ⟨[0.5, 0, 0, 0.9], 4⟩) := by
    decide
  obtain ⟨hends, -, -, hbounded⟩ :=
    derive_ends_bounded hcompile "E" 2 (Replay.mk [0.5, 0, 0, 0.9] 0)
  exact ⟨g, hcompile, (hends 3 (by decide)).trans (congrArg some hderive), hbounded _ _ hderive⟩

end Grammar

end GrammarArt
