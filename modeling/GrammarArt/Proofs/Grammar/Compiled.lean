import GrammarArt.Grammar.Compile

/-! # What is known of a compiled grammar

A text is compiled in two passes.  The lines are read first, and whatever is read has finite
numbers and weights that are not negative (`RawProduction.Sound`).  Then names are resolved,
which leaves numbers and weights alone and counts the arguments of every node, and the rules
are checked.  So every production of a compiled grammar is sound, and its terminal symbol only
makes nodes without children (`compile_wellFormed`).
-/
namespace GrammarArt

/-- All numbers among the arguments are finite. -/
def Argument.FiniteLiterals (args : List Argument) : Prop :=
  ∀ v ∈ Argument.literals args, v.isFinite = true

/-- What reading ensures of a production. -/
structure RawProduction.Sound (p : RawProduction) : Prop where
  weight_finite : p.weight.isFinite = true
  weight_nonneg : 0 ≤ p.weight
  literals_finite : Argument.FiniteLiterals p.args

/-- What compiling ensures of a production. -/
structure Production.Sound (p : Production) : Prop where
  weight_finite : p.weight.isFinite = true
  weight_nonneg : 0 ≤ p.weight
  literals_finite : ∀ v ∈ p.literals, v.isFinite = true
  /-- A node has a symbol for each child, and no more numbers than parameters. -/
  counts : ∀ kind, p.target = .node kind →
    p.symbols.length = kind.arity ∧ p.literals.length ≤ kind.parameters.length

/-- What compiling ensures of a rule. -/
structure Rule.Sound (r : Rule) : Prop where
  productions : ∀ p ∈ r.productions, p.Sound
  terminal : r.symbol = Grammar.terminalSymbol → ∀ p ∈ r.productions, p.isTerminal = true

/-- What compiling ensures of a grammar. -/
def Grammar.WellFormed (g : Grammar) : Prop := ∀ r ∈ g.rules, r.Sound

/-! ### Reading lines -/

namespace Definition

theorem isFinite_of_argument? {cs : List Char} {v : Float32}
    (h : argument? cs = some (.literal v)) : v.isFinite = true := by
  unfold argument? at h
  split at h
  · cases h
  · split at h
    · split at h
      · rename_i hfinite
        cases h
        exact hfinite
      · cases h
    · cases h

theorem of_weight? {cs : List Char} {w : Float32} (h : weight? cs = some w) :
    w.isFinite = true ∧ 0 ≤ w := by
  unfold weight? at h
  split at h
  · split at h
    · rename_i hweight
      cases h
      rw [Bool.and_eq_true, decide_eq_true_eq] at hweight
      exact hweight
    · cases h
  · cases h

theorem finiteLiterals_of_readArguments {index : Nat} {head : List Char}
    {sources : List (List Char)} {args : List Argument}
    (h : readArguments index head sources = .ok args) : Argument.FiniteLiterals args := by
  induction sources generalizing args with
  | nil =>
    cases h
    exact nofun
  | cons source sources ih =>
    rw [readArguments] at h
    split at h
    · cases h
    · rename_i arg harg
      split at h
      · cases h
      · rename_i values hvalues
        cases h
        have hfinite := ih hvalues
        cases arg with
        | symbol name => exact hfinite
        | literal v => exact List.forall_mem_cons.mpr ⟨isFinite_of_argument? harg, hfinite⟩

theorem finiteLiterals_of_readHead {index : Nat} {head name : List Char} {args : List Argument}
    (h : readHead index head = .ok (name, args)) : Argument.FiniteLiterals args := by
  unfold readHead at h
  split at h
  · cases h
    exact nofun
  · split at h
    · simp only at h
      split at h
      · cases h
      · split at h
        · cases h
        · split at h
          · cases h
          · rename_i hargs
            cases h
            exact finiteLiterals_of_readArguments hargs
    · cases h

theorem sound_of_readProduction {index : Nat} {source : List Char} {p : RawProduction}
    (h : readProduction index source = .ok p) : p.Sound := by
  unfold readProduction at h
  split at h
  · cases h
  · split at h
    · cases h
    · rename_i hweight
      split at h
      · cases h
      · rename_i hhead
        split at h
        · cases h
          have hw := of_weight? hweight
          exact ⟨hw.1, hw.2, finiteLiterals_of_readHead hhead⟩
        · cases h

theorem sound_of_readProductions {index : Nat} {sources : List (List Char)}
    {ps : List RawProduction} (h : readProductions index sources = .ok ps) :
    ∀ p ∈ ps, p.Sound := by
  induction sources generalizing index ps with
  | nil =>
    cases h
    exact nofun
  | cons source sources ih =>
    rw [readProductions] at h
    split at h
    · cases h
    · split at h
      · cases h
      · rename_i hp
        split at h
        · cases h
        · rename_i hps
          cases h
          exact List.forall_mem_cons.mpr ⟨sound_of_readProduction hp, ih hps⟩

theorem sound_of_read {line : Nat} {source : List Char} {d : Definition}
    (h : read line source = .ok d) : ∀ p ∈ d.productions, p.Sound := by
  unfold read at h
  split at h
  · cases h
  · simp only at h
    split at h
    · cases h
    · split at h
      · cases h
      · split at h
        · cases h
        · split at h
          · cases h
          · rename_i hps
            cases h
            exact sound_of_readProductions hps

/-- **Whatever is read has finite numbers and weights that are not negative.** -/
theorem sound_of_readAll {line : Nat} {seen : List String} {sources : List (List Char)}
    {ds : List Definition} (h : readAll line seen sources = .ok ds) :
    ∀ d ∈ ds, ∀ p ∈ d.productions, p.Sound := by
  induction sources generalizing line seen ds with
  | nil =>
    cases h
    exact nofun
  | cons source sources ih =>
    rw [readAll] at h
    split at h
    · exact ih h
    · split at h
      · cases h
      · rename_i hd
        split at h
        · cases h
        · split at h
          · cases h
          · rename_i hds
            cases h
            exact List.forall_mem_cons.mpr ⟨sound_of_read hd, ih hds⟩

end Definition

/-! ### Resolving names -/

namespace Grammar

variable {declared : List String}

theorem sound_of_resolve {p : RawProduction} {production : Production} (hp : p.Sound)
    (h : resolve declared p = .ok production) : production.Sound := by
  unfold resolve at h
  split at h
  · rename_i kind hkind
    unfold resolveNode at h
    simp only at h
    split at h
    · cases h
    · rename_i hcounts
      split at h
      · cases h
      · cases h
        refine ⟨hp.weight_finite, hp.weight_nonneg, hp.literals_finite, ?_⟩
        rintro kind ⟨rfl⟩
        rw [not_or, Decidable.not_not, Nat.not_lt] at hcounts
        exact hcounts
  · split at h
    · cases h
    · split at h
      · cases h
      · cases h
        exact ⟨hp.weight_finite, hp.weight_nonneg, nofun, nofun⟩

theorem sound_of_resolveAll {ps : List RawProduction} {productions : List Production}
    (hps : ∀ p ∈ ps, p.Sound) (h : resolveAll declared ps = .ok productions) :
    ∀ p ∈ productions, p.Sound := by
  induction ps generalizing productions with
  | nil =>
    cases h
    exact nofun
  | cons p ps ih =>
    obtain ⟨hp, hps⟩ := List.forall_mem_cons.mp hps
    rw [resolveAll] at h
    split at h
    · cases h
    · rename_i hproduction
      split at h
      · cases h
      · rename_i hproductions
        cases h
        exact List.forall_mem_cons.mpr ⟨sound_of_resolve hp hproduction, ih hps hproductions⟩

theorem sound_of_resolveRule {d : Definition} {r : Rule} (hd : ∀ p ∈ d.productions, p.Sound)
    (h : resolveRule declared d = .ok r) : r.Sound := by
  unfold resolveRule at h
  split at h
  · cases h
  · rename_i hproductions
    simp only at h
    split at h
    · cases h
    · split at h
      · cases h
      · rename_i hterminal
        cases h
        refine ⟨sound_of_resolveAll hd hproductions, fun hsymbol => ?_⟩
        rw [not_and, Bool.not_eq_true, Bool.not_eq_false'] at hterminal
        exact List.all_eq_true.mp (hterminal hsymbol)

theorem sound_of_resolveRules {ds : List Definition} {rs : List Rule}
    (hds : ∀ d ∈ ds, ∀ p ∈ d.productions, p.Sound) (h : resolveRules declared ds = .ok rs) :
    ∀ r ∈ rs, r.Sound := by
  induction ds generalizing rs with
  | nil =>
    cases h
    exact nofun
  | cons d ds ih =>
    obtain ⟨hd, hds⟩ := List.forall_mem_cons.mp hds
    rw [resolveRules] at h
    split at h
    · cases h
    · rename_i hr
      split at h
      · cases h
      · rename_i hrs
        cases h
        exact List.forall_mem_cons.mpr ⟨sound_of_resolveRule hd hr, ih hds hrs⟩

/-- **Every production of a compiled grammar is sound**, and those of its terminal symbol make
nodes without children. -/
theorem compile_wellFormed {text : String} {g : Grammar} (h : compile text = .ok g) :
    g.WellFormed := by
  unfold compile at h
  split at h
  · cases h
  · rename_i hread
    unfold ofDefinitions at h
    split at h
    · cases h
    · cases h
    · rename_i hrules
      cases h
      exact sound_of_resolveRules (Definition.sound_of_readAll hread) hrules

/-- The productions of a symbol are those of a rule of the grammar. -/
theorem exists_rule_of_productions? {g : Grammar} {symbol : String} {ps : List Production}
    (h : g.productions? symbol = some ps) :
    ∃ r ∈ g.rules, r.symbol = symbol ∧ r.productions = ps := by
  obtain ⟨r, hr, rfl⟩ := Option.map_eq_some_iff.mp h
  have hsymbol := List.find?_some hr
  exact ⟨r, List.mem_of_find?_eq_some hr, of_decide_eq_true hsymbol, rfl⟩

theorem WellFormed.sound {g : Grammar} (hg : g.WellFormed) {symbol : String}
    {ps : List Production} (h : g.productions? symbol = some ps) : ∀ p ∈ ps, p.Sound := by
  obtain ⟨r, hr, -, rfl⟩ := exists_rule_of_productions? h
  exact (hg r hr).productions

end Grammar

end GrammarArt
