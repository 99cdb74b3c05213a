import GrammarArt.Proofs.Grammar.Compiled
import GrammarArt.Proofs.Grammar.Reading

/-! # The grammars that texts denote

A grammar is compiled from a text exactly when it is valid (`Grammar.Valid`) and the lines of
the text, those passed over left out, write its rules one by one (`Grammar.WrittenIn`):
`compile_eq_ok_iff`.  Nothing in the text is dropped or reordered then, and nothing but the text
decides what the grammar is.

Validity is all that reading and resolving check, stated of the grammar alone.  Resolving has an
inverse, the definition as it is written (`Rule.content`), since a target is written by one name;
so each of its steps is characterised by its result (`resolve_eq_ok_iff`).
-/
namespace GrammarArt

/-- The name by which a target is written. -/
def Target.name : Target → String
  | .node kind => kind.name
  | .alias symbol => symbol

/-- A production as it is written. -/
def Production.raw (p : Production) : RawProduction := ⟨p.target.name, p.args, p.weight⟩

/-- A rule as it is written. -/
def Rule.content (r : Rule) : String × List RawProduction :=
  (r.symbol, r.productions.map Production.raw)

/-- What resolving ensures of a production. -/
structure Production.Resolved (declared : List String) (p : Production) : Prop where
  /-- A node has a symbol for each child, and no more numbers than parameters. -/
  counts : ∀ kind, p.target = .node kind →
    p.symbols.length = kind.arity ∧ p.literals.length ≤ kind.parameters.length
  symbols : ∀ symbol ∈ p.symbols, symbol ∈ declared
  /-- A name of a kind never stands for a symbol. -/
  reference : ∀ symbol, p.target = .alias symbol →
    symbol ∈ declared ∧ p.args = [] ∧ ∀ kind : Kind, kind.name ≠ symbol

/-- What resolving ensures of a rule. -/
structure Rule.Resolved (declared : List String) (r : Rule) : Prop where
  productions : ∀ p ∈ r.productions, p.Resolved declared
  total_pos : 0 < totalWeight (r.productions.map Production.weight)
  total_finite : (totalWeight (r.productions.map Production.weight)).isFinite = true
  terminal : r.symbol = Grammar.terminalSymbol → ∀ p ∈ r.productions, p.isTerminal = true

/-- A rule that is fit for a grammar with these symbols. -/
structure Rule.Valid (declared : List String) (r : Rule) : Prop
    extends Rule.Resolved declared r where
  name : Definition.isName r.symbol.toList = true
  some_production : r.productions ≠ []
  numbers : ∀ p ∈ r.productions, p.raw.Sound

/-- A grammar that satisfies all that is checked when a text is compiled. -/
structure Grammar.Valid (g : Grammar) : Prop where
  distinct : g.symbols.Nodup
  rules : ∀ r ∈ g.rules, r.Valid g.symbols

/-- The lines of a text, those passed over left out, write the rules of a grammar. -/
def Grammar.WrittenIn (g : Grammar) (text : String) : Prop :=
  List.Forall₂ (fun r line => Definition.Writes r.symbol (r.productions.map Production.raw) line)
    g.rules (Definition.defining (text.toList.splitOn '\n'))

namespace Grammar

variable {declared : List String}

/-! ### Resolving names -/

theorem undeclared?_eq_none_iff {symbols : List String} :
    undeclared? declared symbols = none ↔ ∀ symbol ∈ symbols, symbol ∈ declared := by
  simp [undeclared?]

theorem ofName?_eq_none_iff {name : String} :
    Kind.ofName? name = none ↔ ∀ kind : Kind, kind.name ≠ name := by
  rw [Option.eq_none_iff_forall_ne_some]
  simp only [ne_eq, Kind.ofName?_eq_some_iff]

theorem resolveNode_eq_ok_iff {kind : Kind} {q : RawProduction} {p : Production} :
    resolveNode declared kind q = .ok p ↔
      p = ⟨.node kind, q.args, q.weight⟩ ∧ p.Resolved declared := by
  unfold resolveNode
  constructor
  · intro h
    simp only at h
    split at h
    · cases h
    · rename_i hcounts
      split at h
      · cases h
      · rename_i hdeclared
        cases h
        rw [not_or, Decidable.not_not, Nat.not_lt] at hcounts
        refine ⟨rfl, ?_, undeclared?_eq_none_iff.mp hdeclared, nofun⟩
        rintro kind ⟨rfl⟩
        exact hcounts
  · rintro ⟨rfl, hresolved⟩
    have hcounts := hresolved.counts kind rfl
    simp only [Production.symbols, Production.literals] at hcounts
    have hfits : ¬ ((Argument.symbols q.args).length ≠ kind.arity ∨
        kind.parameters.length < (Argument.literals q.args).length) := by
      omega
    have hdeclared := undeclared?_eq_none_iff.mpr hresolved.symbols
    simp only [Production.symbols] at hdeclared
    simp only [if_neg hfits, hdeclared]

/-- **A production is resolved from the one that is written like it**, if it is fit for the
declared symbols. -/
theorem resolve_eq_ok_iff {q : RawProduction} {p : Production} :
    resolve declared q = .ok p ↔ q = p.raw ∧ p.Resolved declared := by
  unfold resolve
  cases hkind : Kind.ofName? q.name with
  | some kind =>
    simp only [resolveNode_eq_ok_iff]
    have hname := Kind.ofName?_eq_some_iff.mp hkind
    constructor
    · rintro ⟨rfl, hresolved⟩
      refine ⟨?_, hresolved⟩
      rw [Production.raw, Target.name, hname]
    · rintro ⟨rfl, hresolved⟩
      refine ⟨?_, hresolved⟩
      obtain ⟨target, args, weight⟩ := p
      cases target with
      | node kind' => rw [Kind.name_injective hname]; rfl
      | «alias» symbol =>
        -- The name of the kind is no symbol's.
        exact absurd hname ((hresolved.reference symbol rfl).2.2 kind)
  | none =>
    have hnone := ofName?_eq_none_iff.mp hkind
    constructor
    · intro h
      simp only at h
      split at h
      · cases h
      · rename_i hdeclared
        split at h
        · cases h
        · rename_i hargs
          cases h
          rw [Decidable.not_not] at hdeclared hargs
          obtain ⟨name, args, weight⟩ := q
          cases hargs
          refine ⟨rfl, nofun, nofun, ?_⟩
          rintro symbol ⟨rfl⟩
          exact ⟨hdeclared, rfl, hnone⟩
    · rintro ⟨rfl, hresolved⟩
      obtain ⟨target, args, weight⟩ := p
      cases target with
      | node kind => exact absurd rfl (hnone kind)
      | «alias» symbol =>
        obtain ⟨hdeclared, hargs, -⟩ := hresolved.reference symbol rfl
        cases hargs
        simp only [Production.raw, Target.name, hdeclared, not_true_eq_false, if_false, ne_eq]

theorem resolveAll_eq_ok_iff {qs : List RawProduction} {ps : List Production} :
    resolveAll declared qs = .ok ps ↔
      qs = ps.map Production.raw ∧ ∀ p ∈ ps, p.Resolved declared := by
  induction qs generalizing ps with
  | nil =>
    constructor
    · rintro ⟨⟩
      exact ⟨rfl, nofun⟩
    · rintro ⟨heq, -⟩
      rw [List.map_eq_nil_iff.mp heq.symm, resolveAll]
  | cons q qs ih =>
    rw [resolveAll]
    constructor
    · intro h
      split at h
      · cases h
      · rename_i p hp
        split at h
        · cases h
        · rename_i ps hps
          cases h
          rw [resolve_eq_ok_iff] at hp
          obtain ⟨rfl, hresolved⟩ := hp
          obtain ⟨rfl, hrest⟩ := ih.mp hps
          exact ⟨rfl, List.forall_mem_cons.mpr ⟨hresolved, hrest⟩⟩
    · rintro ⟨heq, hresolved⟩
      cases ps with
      | nil => cases heq
      | cons p ps =>
        cases heq
        obtain ⟨hp, hps⟩ := List.forall_mem_cons.mp hresolved
        have hfirst : resolve declared p.raw = .ok p := by
          rw [resolve_eq_ok_iff]
          exact ⟨rfl, hp⟩
        simp only [hfirst, ih.mpr ⟨rfl, hps⟩]

theorem resolveRule_eq_ok_iff {d : Definition} {r : Rule} :
    resolveRule declared d = .ok r ↔ d.content = r.content ∧ r.Resolved declared := by
  unfold resolveRule
  constructor
  · intro h
    split at h
    · cases h
    · rename_i productions hproductions
      simp only at h
      split at h
      · cases h
      · rename_i htotal
        split at h
        · cases h
        · rename_i hterminal
          cases h
          rw [resolveAll_eq_ok_iff] at hproductions
          obtain ⟨heq, hresolved⟩ := hproductions
          rw [Bool.not_eq_true', Bool.not_eq_false, Bool.and_eq_true, decide_eq_true_eq] at htotal
          refine ⟨?_, hresolved, htotal.1, htotal.2, fun hsymbol => ?_⟩
          · rw [Definition.content, Rule.content, heq]
          · rw [not_and, Bool.not_eq_true, Bool.not_eq_false'] at hterminal
            exact List.all_eq_true.mp (hterminal hsymbol)
  · rintro ⟨heq, hresolved⟩
    obtain ⟨hsymbol, hproductions⟩ := Prod.ext_iff.mp heq
    simp only [Definition.content, Rule.content] at hsymbol hproductions
    have hall : resolveAll declared d.productions = .ok r.productions := by
      rw [resolveAll_eq_ok_iff]
      exact ⟨hproductions, hresolved.productions⟩
    have hterminal : ¬ (d.symbol = terminalSymbol ∧
        (!r.productions.all Production.isTerminal) = true) := by
      rintro ⟨hname, hnot⟩
      rw [List.all_eq_true.mpr (hresolved.terminal (hsymbol ▸ hname))] at hnot
      cases hnot
    simp only [hall, hresolved.total_pos, hresolved.total_finite, decide_true, Bool.and_true,
      Bool.not_true, Bool.false_eq_true, if_false]
    rw [if_neg hterminal, hsymbol]

theorem resolveRules_eq_ok_iff {ds : List Definition} {rs : List Rule} :
    resolveRules declared ds = .ok rs ↔
      ds.map Definition.content = rs.map Rule.content ∧ ∀ r ∈ rs, r.Resolved declared := by
  induction ds generalizing rs with
  | nil =>
    constructor
    · rintro ⟨⟩
      exact ⟨rfl, nofun⟩
    · rintro ⟨heq, -⟩
      rw [List.map_eq_nil_iff.mp heq.symm, resolveRules]
  | cons d ds ih =>
    rw [resolveRules, List.map_cons]
    constructor
    · intro h
      split at h
      · cases h
      · rename_i r hr
        split at h
        · cases h
        · rename_i rs hrs
          cases h
          rw [resolveRule_eq_ok_iff] at hr
          obtain ⟨hcontent, hresolved⟩ := hr
          obtain ⟨hcontents, hrest⟩ := ih.mp hrs
          refine ⟨?_, List.forall_mem_cons.mpr ⟨hresolved, hrest⟩⟩
          rw [List.map_cons, hcontent, hcontents]
    · rintro ⟨heq, hresolved⟩
      cases rs with
      | nil => cases heq
      | cons r rs =>
        obtain ⟨hcontent, hcontents⟩ := List.cons.inj heq
        obtain ⟨hr, hrs⟩ := List.forall_mem_cons.mp hresolved
        have hfirst : resolveRule declared d = .ok r := by
          rw [resolveRule_eq_ok_iff]
          exact ⟨hcontent, hr⟩
        simp only [hfirst, ih.mpr ⟨hcontents, hrs⟩]

/-! ### Texts -/

theorem map_fst_content (ds : List Definition) :
    (ds.map Definition.content).map Prod.fst = ds.map Definition.symbol := by
  rw [List.map_map]
  rfl

theorem map_fst_rules (rs : List Rule) :
    (rs.map Rule.content).map Prod.fst = rs.map Rule.symbol := by
  rw [List.map_map]
  rfl

theorem ofDefinitions_eq_ok_iff {ds : List Definition} {g : Grammar} :
    ofDefinitions ds = .ok g ↔
      ds.map Definition.content = g.rules.map Rule.content ∧
        ∀ r ∈ g.rules, r.Resolved g.symbols := by
  have hsymbols (h : ds.map Definition.content = g.rules.map Rule.content) :
      ds.map Definition.symbol = g.symbols := by
    rw [← map_fst_content, h, map_fst_rules]
    rfl
  unfold ofDefinitions
  constructor
  · intro h
    split at h
    · cases h
    · cases h
    · rename_i hrules
      cases h
      rw [resolveRules_eq_ok_iff] at hrules
      obtain ⟨hcontent, hresolved⟩ := hrules
      exact ⟨hcontent, hsymbols hcontent ▸ hresolved⟩
  · rintro ⟨hcontent, hresolved⟩
    have hrules : resolveRules (ds.map Definition.symbol) ds = .ok g.rules := by
      rw [resolveRules_eq_ok_iff]
      exact ⟨hcontent, hsymbols hcontent ▸ hresolved⟩
    rw [hrules]
    rfl

/-- The written rules of a grammar are what its lines write. -/
theorem writtenIn_iff {g : Grammar} {text : String} :
    g.WrittenIn text ↔
      List.Forall₂ (fun d source => Definition.Writes d.1 d.2 source) (g.rules.map Rule.content)
        (Definition.defining (text.toList.splitOn '\n')) := by
  rw [List.forall₂_map_left_iff]
  rfl

/-- **A text denotes a grammar exactly when the grammar is valid and written in the text.** -/
theorem compile_eq_ok_iff {text : String} {g : Grammar} :
    compile text = .ok g ↔ g.Valid ∧ g.WrittenIn text := by
  constructor
  · intro h
    have hsound := compile_wellFormed h
    unfold compile at h
    split at h
    · cases h
    · rename_i ds hread
      rw [ofDefinitions_eq_ok_iff] at h
      obtain ⟨hcontent, hresolved⟩ := h
      obtain ⟨hwritten, hnodup, -⟩ := Definition.readAll_eq_ok_iff.mp ⟨ds, hread, hcontent⟩
      rw [map_fst_rules] at hnodup
      have hwritten := writtenIn_iff.mpr hwritten
      obtain ⟨hnames, -⟩ := (List.forall₂_and_left _ _).mp
        (hwritten.imp fun r line hline => ⟨And.intro hline.1 hline.2.1, hline⟩)
      refine ⟨⟨hnodup, fun r hr => ?_⟩, hwritten⟩
      obtain ⟨hname, hne⟩ := hnames r hr
      refine ⟨hresolved r hr, hname, fun hnil => hne (by rw [hnil]; rfl), fun p hp => ?_⟩
      -- Resolving leaves the numbers as they were read.
      obtain ⟨hfinite, hnonneg, hliterals, -⟩ := (hsound r hr).productions p hp
      exact ⟨hfinite, hnonneg, hliterals⟩
  · rintro ⟨hvalid, hwritten⟩
    have hnodup : ((g.rules.map Rule.content).map Prod.fst).Nodup := by
      rw [map_fst_rules]
      exact hvalid.distinct
    obtain ⟨ds, hread, hcontent⟩ :
        ∃ ds, Definition.readAll 1 [] (text.toList.splitOn '\n') = .ok ds ∧
          ds.map Definition.content = g.rules.map Rule.content :=
      Definition.readAll_eq_ok_iff.mpr ⟨writtenIn_iff.mp hwritten, hnodup, nofun⟩
    have hresolved : ofDefinitions ds = .ok g := by
      rw [ofDefinitions_eq_ok_iff]
      exact ⟨hcontent, fun r hr => (hvalid.rules r hr).toResolved⟩
    unfold compile
    rw [hread]
    exact hresolved

/-! ### Looking symbols up -/

variable {g : Grammar} {symbol : String}

theorem productions?_eq_none_iff : g.productions? symbol = none ↔ symbol ∉ g.symbols := by
  simp [productions?, symbols]

/-- The productions of a rule are found under its symbol, since no other rule has it. -/
theorem productions?_symbol {r : Rule} (hdistinct : g.symbols.Nodup) (hr : r ∈ g.rules) :
    g.productions? r.symbol = some r.productions := by
  have hsome : ∃ ps, g.productions? r.symbol = some ps := by
    refine Option.ne_none_iff_exists'.mp fun hnone => ?_
    exact productions?_eq_none_iff.mp hnone (List.mem_map_of_mem hr)
  obtain ⟨ps, hps⟩ := hsome
  obtain ⟨r', hr', hsymbol, rfl⟩ := exists_rule_of_productions? hps
  rw [hps, List.inj_on_of_nodup_map hdistinct hr' hr hsymbol]

theorem Valid.target_eq_node (hg : g.Valid) {r : Rule} (hr : r ∈ g.rules) {p : Production}
    (hp : p ∈ r.productions) {kind : Kind} (hname : p.target.name = kind.name) :
    p.target = .node kind := by
  cases htarget : p.target with
  | node kind' =>
    rw [htarget] at hname
    rw [Kind.name_injective hname]
  | «alias» symbol =>
    rw [htarget] at hname
    exact absurd hname.symm ((((hg.rules r hr).productions p hp).reference symbol htarget).2.2 kind)

/-- **What is known of a compiled grammar.**  It is valid, its rules are those of the text, in
their order and with their names, arguments and weights, the first one is where derivations
start, each rule is found under its symbol and nothing under any other name; and a name of a kind
always means the kind, also if a symbol has that name. -/
theorem valid_of_compile {text : String} (h : compile text = .ok g) :
    g.Valid ∧ g.WrittenIn text ∧ g.symbols.head? = some g.start ∧
      (∀ r ∈ g.rules, g.productions? r.symbol = some r.productions) ∧
      (∀ symbol, g.productions? symbol = none ↔ symbol ∉ g.symbols) ∧
      ∀ r ∈ g.rules, ∀ p ∈ r.productions, ∀ kind : Kind,
        p.raw.name = kind.name → p.target = .node kind := by
  rw [compile_eq_ok_iff] at h
  obtain ⟨hvalid, hwritten⟩ := h
  refine ⟨hvalid, hwritten, rfl, fun r hr => ?_, fun symbol => productions?_eq_none_iff, ?_⟩
  · exact productions?_symbol hvalid.distinct hr
  · intro r hr p hp kind hname
    exact hvalid.target_eq_node hr hp hname

/-- A comment, blank characters, a symbol with the name of a kind, and a terminal symbol. -/
theorem valid_of_compile_three_rules :
    ∃ g : Grammar,
      compile "# three rules\n E :: sin( x , 2) : 1 | E:0.5\n\nx::x:2\nZ :: bw(0.5):1" = .ok g ∧
      g.symbols = ["E", "x", "Z"] ∧ g.Valid ∧ g.productions? "x" = some [⟨.node .x, [], 2⟩] := by
  have hcompile :
      compile "# three rules\n E :: sin( x , 2) : 1 | E:0.5\n\nx::x:2\nZ :: bw(0.5):1" =
        .ok ⟨⟨"E", [⟨.node .sin, [.symbol "x", .literal 2], 1⟩, ⟨.alias "E", [], 0.5⟩]⟩,
          [⟨"x", [⟨.node .x, [], 2⟩]⟩, ⟨"Z", [⟨.node .bw, [.literal 0.5], 1⟩]⟩]⟩ := by
    decide
  obtain ⟨hvalid, -, -, hfound, -⟩ := valid_of_compile hcompile
  exact ⟨_, hcompile, rfl, hvalid, hfound ⟨"x", [⟨.node .x, [], 2⟩]⟩ (.tail _ (.head _))⟩

end Grammar

end GrammarArt
