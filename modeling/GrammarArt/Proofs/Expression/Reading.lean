import GrammarArt.Expression.Parser
import GrammarArt.Proofs.Expression.Rendering
import GrammarArt.Proofs.Tree.Numbering

/-! # Reading a rendering

The reader of tokens reads every rendering of a tree as that tree, without identifiers, if
the tree is not deeper than the levels that are left, and reports that it is too deep
otherwise (`readsTree_readNode`).  What follows the rendering is left alone; it only must not
begin with a parenthesis, which would be taken for the arguments of a bare name.

The proof follows the grammar: an argument (`readArgument_reads`), the arguments up to their
closing parenthesis (`readArguments_reads`), and a node, by induction on the tree.
-/
namespace GrammarArt

open Expression

namespace Tree

theorem depth_le_succ_iff {t : Tree} {n : Nat} :
    t.depth ≤ n + 1 ↔ ∀ c ∈ t.children, c.depth ≤ n := by
  cases t with
  | terminal _ _ => simp [depth, fold, children]
  | unary _ _ a =>
    simp [depth, fold, children]
    omega
  | binary _ _ a b =>
    simp [depth, fold, children]
    omega
  | ternary _ _ a b c =>
    simp [depth, fold, children]
    omega

theorem depth_pos (t : Tree) : 0 < t.depth := by
  rw [depth, fold_eq]
  exact Nat.lt_add_right _ Nat.one_pos

/-- A rendering of a tree begins with the name of its root. -/
theorem Renders.exists_eq_cons {t : Tree} {ls : List Lexeme} (h : t.Renders ls) :
    ∃ ls', ls = .name t.kind.name :: ls' := by
  rw [renders_eq] at h
  cases h with
  | bare _ | empty _ | applied _ _ => exact ⟨_, rfl⟩

end Tree

/-- A rendering of an argument begins with something else than a closing parenthesis. -/
theorem Tree.Argument.Renders.exists_eq_cons {arg : Tree.Argument} {ls : List Lexeme}
    (h : arg.Renders ls) : ∃ l ls', ls = l :: ls' ∧ l ≠ .closeParen := by
  cases arg with
  | child t =>
    obtain ⟨ls', rfl⟩ := Tree.Renders.exists_eq_cons h
    exact ⟨_, ls', rfl, by simp⟩
  | parameter value =>
    cases h with
    | plain _ | negated _ => exact ⟨_, _, rfl, by simp⟩

/-- Renderings of some arguments begin like that of the first one. -/
theorem exists_intercalate_eq_cons {args : List Tree.Argument} {parts : List (List Lexeme)}
    (hne : args ≠ []) (h : List.Forall₂ Tree.Argument.Renders args parts) (ls : List Lexeme) :
    ∃ l ls', List.intercalate [.comma] parts ++ ls = l :: ls' ∧ l ≠ .closeParen := by
  cases h with
  | nil => exact absurd rfl hne
  | @cons arg part args parts hpart hparts =>
    obtain ⟨l, ls', rfl, hl⟩ := Tree.Argument.Renders.exists_eq_cons hpart
    cases parts with
    | nil => exact ⟨l, _, rfl, hl⟩
    | cons part' parts =>
      rw [List.intercalate_cons_cons]
      exact ⟨l, _, rfl, hl⟩

/-- The argument has at most `levels` levels. -/
def Tree.Argument.Fits (levels : Nat) : Tree.Argument → Prop
  | child t => t.depth ≤ levels
  | parameter _ => True

theorem Tree.depth_le_succ_iff_fits {t : Tree} {n : Nat} :
    t.depth ≤ n + 1 ↔ ∀ arg ∈ t.arguments, arg.Fits n := by
  rw [depth_le_succ_iff, arguments, List.forall_mem_append, List.forall_mem_map,
    List.forall_mem_map]
  exact ⟨fun h => ⟨h, fun _ _ => trivial⟩, fun h => h.1⟩

namespace Expression

/-- What comes of reading something: it and what follows it, if it is not too deep. -/
inductive Reads {α : Type} {tokens : List Token} (fits : Prop) (value : α) (rest : List Token) :
    Except ParseError (Read α tokens) → Prop where
  | read (h : fits) (shorter : rest.length < tokens.length) :
    Reads fits value rest (.ok ⟨value, rest, shorter⟩)
  | tooDeep (h : ¬ fits) (offset : Nat) : Reads fits value rest (.error ⟨offset, .tooDeep⟩)

/-- What follows a rendering: it does not begin with a parenthesis. -/
def Follows (rest : List Token) : Prop := ∀ token ∈ rest.head?, token.lexeme ≠ .openParen

theorem follows_cons {token : Token} (h : token.lexeme ≠ .openParen) (rest : List Token) :
    Follows (token :: rest) := by
  rintro token' ⟨rfl⟩
  exact h

/-- The reader reads the renderings of a tree, if it has at most `levels` levels. -/
def ReadsTree (node : NodeReader) (levels : Nat) (t : Tree) : Prop :=
  ∀ tokens front rest : List Token, tokens = front ++ rest →
    t.Renders (front.map Token.lexeme) → Follows rest →
    Reads (t.depth ≤ levels) t.erased rest (node tokens)

/-! ### One argument -/

/-- The arguments with one more behind them. -/
def Arguments.add (args : Arguments) : Tree.Argument → Arguments
  | .child t => { args with children := args.children ++ [t.erased] }
  | .parameter value => args.addParameter value

/-- The arguments can follow those before them: there is no child behind a parameter. -/
def Arguments.Admits (args : Arguments) : List Tree.Argument → Prop
  | [] => True
  | .child t :: as => args.parameters = [] ∧ (args.add (.child t)).Admits as
  | .parameter value :: as => (args.add (.parameter value)).Admits as

variable {node : NodeReader} {levels : Nat} {args : Arguments} {tokens front rest : List Token}

theorem readArgument_child (stop : Nat) {t : Tree} (hnode : ReadsTree node levels t)
    (hargs : args.parameters = []) (htokens : tokens = front ++ rest)
    (hrenders : t.Renders (front.map Token.lexeme)) (hrest : Follows rest) :
    Reads (t.depth ≤ levels) (args.add (.child t)) rest (readArgument node stop args tokens) := by
  have hread := hnode tokens front rest htokens hrenders hrest
  obtain ⟨ls, hls⟩ := hrenders.exists_eq_cons
  obtain ⟨token, front', rfl, hlexeme, -⟩ := List.map_eq_cons_iff.mp hls
  subst htokens
  simp only [List.cons_append, readArgument, hlexeme] at hread ⊢
  generalize node (token :: (front' ++ rest)) = result at hread
  cases hread with
  | read hfits shorter =>
    have hadd : args.addChild? t.erased = some (args.add (.child t)) := if_pos hargs
    simp only [hadd]
    exact .read hfits shorter
  | tooDeep hfits offset => exact .tooDeep hfits offset

theorem readArgument_parameter (stop : Nat) {value : Float32} {fits : Prop} (hfits : fits)
    (htokens : tokens = front ++ rest)
    (hrenders : RendersParameter value (front.map Token.lexeme)) :
    Reads fits (args.add (.parameter value)) rest (readArgument node stop args tokens) := by
  subst htokens
  generalize hls : front.map Token.lexeme = ls at hrenders
  cases hrenders with
  | plain value =>
    obtain ⟨token, front', rfl, hlexeme, hnil⟩ := List.map_eq_cons_iff.mp hls
    cases List.map_eq_nil_iff.mp hnil
    simp only [List.cons_append, readArgument, hlexeme]
    exact .read hfits _
  | negated value =>
    obtain ⟨token, front', rfl, hlexeme, hcons⟩ := List.map_eq_cons_iff.mp hls
    obtain ⟨next, front'', rfl, hnext, hnil⟩ := List.map_eq_cons_iff.mp hcons
    cases List.map_eq_nil_iff.mp hnil
    simp only [List.cons_append, readArgument, hlexeme, hnext]
    exact .read hfits _

/-- The first of some arguments that can follow those before them is read. -/
theorem readArgument_reads (stop : Nat) {arg : Tree.Argument} {as : List Tree.Argument}
    (hnode : ∀ t, arg = .child t → ReadsTree node levels t) (hadmits : args.Admits (arg :: as))
    (htokens : tokens = front ++ rest) (hrenders : arg.Renders (front.map Token.lexeme))
    (hrest : Follows rest) :
    Reads (arg.Fits levels) (args.add arg) rest (readArgument node stop args tokens) ∧
      (args.add arg).Admits as := by
  cases arg with
  | child t =>
    exact ⟨readArgument_child stop (hnode t rfl) hadmits.1 htokens hrenders hrest, hadmits.2⟩
  | parameter value => exact ⟨readArgument_parameter stop trivial htokens hrenders, hadmits⟩

/-! ### All arguments -/

/-- The arguments of a node are read up to its closing parenthesis. -/
theorem readArguments_reads (stop : Nat) {as : List Tree.Argument} (hne : as ≠ [])
    {parts : List (List Lexeme)} (hnode : ∀ t, .child t ∈ as → ReadsTree node levels t)
    (hadmits : args.Admits as) (htokens : tokens = front ++ rest)
    (hparts : List.Forall₂ Tree.Argument.Renders as parts)
    (hfront : front.map Token.lexeme = List.intercalate [.comma] parts ++ [.closeParen]) :
    Reads (∀ arg ∈ as, arg.Fits levels) (as.foldl Arguments.add args) rest
      (readArguments node stop args tokens) := by
  induction hparts generalizing args tokens front with
  | nil => exact absurd rfl hne
  | @cons arg part as parts hpart hparts ih =>
    have hnode' : ∀ t, arg = .child t → ReadsTree node levels t :=
      fun t ht => hnode t (ht ▸ List.mem_cons_self)
    rw [readArguments, List.forall_mem_cons, List.foldl_cons]
    cases hparts with
    | nil =>
      -- The last argument: the closing parenthesis follows.
      rw [List.intercalate_singleton] at hfront
      obtain ⟨first, left, rfl, rfl, hclose⟩ := List.map_eq_append_iff.mp hfront
      obtain ⟨close, nothing, rfl, hlexeme, hnil⟩ := List.map_eq_cons_iff.mp hclose
      cases List.map_eq_nil_iff.mp hnil
      have hrest : Follows (close :: rest) := follows_cons (by simp [hlexeme]) rest
      have htokens' : tokens = first ++ (close :: rest) :=
        htokens.trans (List.append_assoc _ _ _)
      obtain ⟨hread, -⟩ := readArgument_reads stop hnode' hadmits htokens' hpart hrest
      generalize readArgument node stop args tokens = result at hread
      cases hread with
      | read hfits shorter =>
        simp only [hlexeme]
        exact .read ⟨hfits, nofun⟩ _
      | tooDeep hfits offset => exact .tooDeep (fun h => hfits h.1) offset
    | cons hnext hparts' =>
      -- A comma follows, and behind it the other arguments.
      rw [List.intercalate_cons_cons, List.append_assoc, List.append_assoc] at hfront
      obtain ⟨first, left, rfl, rfl, hleft⟩ := List.map_eq_append_iff.mp hfront
      obtain ⟨comma, others, rfl, hlexeme, hothers⟩ := List.map_eq_cons_iff.mp hleft
      have hrest : Follows (comma :: (others ++ rest)) := follows_cons (by simp [hlexeme]) _
      have htokens' : tokens = first ++ (comma :: (others ++ rest)) :=
        htokens.trans (List.append_assoc _ _ _)
      obtain ⟨hread, hadmits'⟩ := readArgument_reads stop hnode' hadmits htokens' hpart hrest
      have hreads := ih (List.cons_ne_nil _ _) (fun t ht => hnode t (List.mem_cons_of_mem _ ht))
        hadmits' rfl hothers
      generalize readArgument node stop args tokens = result at hread
      cases hread with
      | read hfits shorter =>
        simp only [hlexeme]
        generalize readArguments node stop (args.add arg) (others ++ rest) = result at hreads
        cases hreads with
        | read hfits' shorter' => exact .read ⟨hfits, hfits'⟩ _
        | tooDeep hfits' offset => exact .tooDeep (fun h => hfits' h.2) offset
      | tooDeep hfits offset => exact .tooDeep (fun h => hfits h.1) offset

/-! ### A node -/

theorem foldl_add_parameters (values : List Float32) (args : Arguments) :
    (values.map Tree.Argument.parameter).foldl Arguments.add args =
      ⟨args.children, args.parameters ++ values⟩ := by
  induction values generalizing args with
  | nil => simp
  | cons value values ih =>
    rw [List.map_cons, List.foldl_cons, ih]
    simp [Arguments.add, Arguments.addParameter]

theorem foldl_add_children (ts : List Tree) (args : Arguments) :
    (ts.map Tree.Argument.child).foldl Arguments.add args =
      ⟨args.children ++ ts.map Tree.erased, args.parameters⟩ := by
  induction ts generalizing args with
  | nil => simp
  | cons t ts ih =>
    rw [List.map_cons, List.foldl_cons, ih]
    simp [Arguments.add]

theorem foldl_add_arguments (ts : List Tree) (vs : List Float32) :
    (ts.map Tree.Argument.child ++ vs.map Tree.Argument.parameter).foldl Arguments.add ⟨[], []⟩ =
      ⟨ts.map Tree.erased, vs⟩ := by
  rw [List.foldl_append, foldl_add_children, foldl_add_parameters]
  rfl

theorem admits_parameters (values : List Float32) (args : Arguments) :
    args.Admits (values.map Tree.Argument.parameter) := by
  induction values generalizing args with
  | nil => trivial
  | cons value values ih => exact ih _

theorem admits_arguments (ts : List Tree) (vs : List Float32) : Arguments.Admits ⟨[], []⟩
    (ts.map Tree.Argument.child ++ vs.map Tree.Argument.parameter) := by
  have h : ∀ args : Arguments, args.parameters = [] →
      args.Admits (ts.map Tree.Argument.child ++ vs.map Tree.Argument.parameter) := by
    induction ts with
    | nil => exact fun args _ => admits_parameters vs args
    | cons t ts ih => exact fun args hargs => ⟨hargs, ih _ hargs⟩
  exact h _ rfl

/-- What comes of reading the argument list of a node, which may be empty. -/
inductive ReadsList (fits : Prop) (args : Arguments) (rest : List Token) :
    Except ParseError (Arguments × Rest tokens) → Prop where
  | read (h : fits) (le : rest.length ≤ tokens.length) :
    ReadsList fits args rest (.ok (args, ⟨rest, le⟩))
  | tooDeep (h : ¬ fits) (offset : Nat) : ReadsList fits args rest (.error ⟨offset, .tooDeep⟩)

theorem skip?_of_eq {wanted : Lexeme} {token : Token} (h : token.lexeme = wanted)
    (rest : List Token) : skip? wanted (token :: rest) = some ⟨rest, Nat.le_succ _⟩ :=
  if_pos h

/-- The argument list of a node is read, whatever kind the node is of. -/
theorem readArgumentList_reads (stop : Nat) {kind : Kind} {ts : List Tree} {vs : List Float32}
    (hnode : ∀ t ∈ ts, ReadsTree node levels t) (htokens : tokens = front ++ rest)
    (hrenders : RendersNode kind ((ts.map Tree.Argument.child ++
      vs.map Tree.Argument.parameter).map Tree.Argument.Renders)
        (.name kind.name :: front.map Token.lexeme)) (hrest : Follows rest) :
    ReadsList (∀ arg ∈ ts.map Tree.Argument.child ++ vs.map Tree.Argument.parameter,
      arg.Fits levels) ⟨ts.map Tree.erased, vs⟩ rest (readArgumentList node stop tokens) := by
  subst htokens
  rw [← foldl_add_arguments]
  have hchildren : ∀ c, .child c ∈ ts.map Tree.Argument.child ++
      vs.map Tree.Argument.parameter → ReadsTree node levels c :=
    fun c hc => hnode c (by simpa using hc)
  have hadmits := admits_arguments ts vs
  generalize ts.map Tree.Argument.child ++ vs.map Tree.Argument.parameter = as at *
  generalize hls : front.map Token.lexeme = ls at hrenders
  cases hrenders with
  | bare hnone =>
    cases List.map_eq_nil_iff.mp hnone
    cases List.map_eq_nil_iff.mp hls
    have hskip : skip? .openParen rest = none := by
      cases rest with
      | nil => rfl
      | cons token rest => exact if_neg (hrest token rfl)
    rw [List.nil_append, readArgumentList, hskip]
    exact .read nofun _
  | empty hnone =>
    cases List.map_eq_nil_iff.mp hnone
    obtain ⟨opening, front', rfl, hopen, hcons⟩ := List.map_eq_cons_iff.mp hls
    obtain ⟨closing, front'', rfl, hclose, hnil⟩ := List.map_eq_cons_iff.mp hcons
    cases List.map_eq_nil_iff.mp hnil
    simp only [List.cons_append, List.nil_append, readArgumentList, skip?_of_eq hopen,
      skip?_of_eq hclose]
    exact .read nofun _
  | @applied parts hsome hparts =>
    rw [ne_eq, List.map_eq_nil_iff] at hsome
    rw [List.forall₂_map_left_iff] at hparts
    obtain ⟨opening, inner, rfl, hopen, hinner⟩ := List.map_eq_cons_iff.mp hls
    have hskip : skip? .closeParen (inner ++ rest) = none := by
      obtain ⟨l, ls', hcons, hl⟩ := exists_intercalate_eq_cons hsome hparts [.closeParen]
      rw [hcons] at hinner
      obtain ⟨first, left, rfl, rfl, -⟩ := List.map_eq_cons_iff.mp hinner
      exact if_neg hl
    have hreads : Reads (∀ arg ∈ as, arg.Fits levels) (as.foldl Arguments.add ⟨[], []⟩) rest
        (readArguments node stop ⟨[], []⟩ (inner ++ rest)) :=
      readArguments_reads stop hsome hchildren hadmits rfl hparts hinner
    simp only [List.cons_append, readArgumentList, skip?_of_eq hopen, hskip]
    generalize readArguments node stop ⟨[], []⟩ (inner ++ rest) = result at hreads
    cases hreads with
    | read hfits shorter => exact .read hfits _
    | tooDeep hfits offset => exact .tooDeep hfits offset

theorem buildNode_erased (t : Tree) (start : Nat) :
    buildNode t.kind.name t.kind start ⟨t.children.map Tree.erased, t.parameters⟩ =
      .ok t.erased := by
  rw [buildNode, Tree.make_erased]

/-- **A rendering of a tree is read as the tree**, unless the tree is too deep. -/
theorem readsTree_readNode (stop : Nat) (t : Tree) (levels : Nat) :
    ReadsTree (readNode stop levels) levels t := by
  induction t using Tree.induct generalizing levels with
  | step t ih =>
    rintro tokens front rest rfl hrenders hrest
    obtain ⟨ls, hls⟩ := hrenders.exists_eq_cons
    obtain ⟨token, front', rfl, hlexeme, -⟩ := List.map_eq_cons_iff.mp hls
    cases levels with
    | zero => exact .tooDeep (Nat.not_le.mpr t.depth_pos) token.start
    | succ levels =>
      rw [List.map_cons, hlexeme, Tree.renders_eq] at hrenders
      have hreads := readArgumentList_reads stop (fun c hc => ih c hc levels) rfl hrenders hrest
      rw [← Tree.arguments, ← Tree.depth_le_succ_iff_fits] at hreads
      simp only [List.cons_append, readNode, hlexeme, Kind.ofName?_name]
      generalize readArgumentList (readNode stop levels) stop (front' ++ rest) = result at hreads
      cases hreads with
      | read hfits le =>
        simp only [buildNode_erased]
        exact .read hfits _
      | tooDeep hfits offset => exact .tooDeep hfits offset

end Expression

end GrammarArt
