import GrammarArt.Proofs.Expression.RoundTrip

/-! # The language of expressions

Reading a rendering of a tree gives the tree back.  Here is the converse: whatever is read is
a rendering of the tree that comes of it.  So the reader accepts the renderings of trees that
are not too deep, and nothing else (`parse_eq_ok_iff`), and no text has two readings.

The proof goes through the reader in the order of its definition: an argument, the arguments
up to their closing parenthesis, an argument list that may be missing, a node.  Each lemma
says which tokens were taken off the front of the list, and what they are a rendering of.
-/
namespace GrammarArt

open Expression

namespace Tree

/-- The lexemes of a tree do not depend on its identifiers. -/
theorem renders_numbered (t : Tree) : t.numbered.Renders = t.Renders := fold_numbered _ t

/-- Neither do its parameters. -/
theorem finiteParameters_numbered (t : Tree) : t.numbered.FiniteParameters = t.FiniteParameters :=
  fold_numbered _ t

/-- An argument without identifiers. -/
def Argument.Unnumbered : Argument → Prop
  | child t => t.erased = t
  | parameter _ => True

end Tree

namespace Expression

variable {node : NodeReader} {levels stop : Nat} {args args' : Arguments}
  {tokens rest : List Token} {shorter : rest.length < tokens.length}

/-- Whatever the reader returns is a tree without identifiers, at most `levels` levels deep,
and it was read from a rendering of the tree. -/
def ReadsRenderings (node : NodeReader) (levels : Nat) : Prop :=
  ∀ (tokens : List Token) (t : Tree) (rest : List Token) (shorter : rest.length < tokens.length),
    node tokens = .ok ⟨t, rest, shorter⟩ →
      t.erased = t ∧ t.depth ≤ levels ∧
        ∃ front, tokens = front ++ rest ∧ t.Renders (front.map Token.lexeme)

/-! ### One argument -/

theorem addChild?_eq_some_iff {t : Tree} (ht : t.erased = t) :
    args.addChild? t = some args' ↔ args.parameters = [] ∧ args' = args.add (.child t) := by
  rw [Arguments.addChild?, Arguments.add, ht, Option.ite_none_right_eq_some, Option.some.injEq]
  exact and_congr_right fun _ => eq_comm

/-- What is read as an argument is a rendering of one that can follow those before it. -/
theorem exists_of_readArgument (hnode : ReadsRenderings node levels)
    (h : readArgument node stop args tokens = .ok ⟨args', rest, shorter⟩) :
    ∃ arg front, tokens = front ++ rest ∧ arg.Renders (front.map Token.lexeme) ∧
      arg.Fits levels ∧ arg.Unnumbered ∧ args.Admits [arg] ∧ args' = args.add arg := by
  unfold readArgument at h
  split at h
  · cases h
  · rename_i token left
    split at h
    · rename_i value hlexeme
      cases h
      refine ⟨.parameter value, [token], rfl, ?_, trivial, trivial, trivial, rfl⟩
      rw [List.map_singleton, hlexeme]
      exact .plain value
    · rename_i hminus
      split at h
      · cases h
      · rename_i next left'
        split at h
        · rename_i value hnumber
          cases h
          refine ⟨.parameter (-value), [token, next], rfl, ?_, trivial, trivial, trivial, rfl⟩
          rw [List.map_cons, List.map_singleton, hminus, hnumber]
          exact .negated value
        · cases h
    · split at h
      · cases h
      · rename_i child rest shorter hread
        obtain ⟨hplain, hdepth, front, hfront, hrenders⟩ := hnode _ _ _ _ hread
        split at h
        · rename_i added hadd
          cases h
          obtain ⟨hargs, hadded⟩ := (addChild?_eq_some_iff hplain).mp hadd
          exact ⟨.child child, front, hfront, hrenders, hdepth, hplain, ⟨hargs, trivial⟩, hadded⟩
        · cases h
    · cases h

/-! ### All arguments -/

theorem admits_cons {arg : Tree.Argument} {as : List Tree.Argument} :
    args.Admits (arg :: as) ↔ args.Admits [arg] ∧ (args.add arg).Admits as := by
  cases arg with
  | child t => exact ⟨fun h => ⟨⟨h.1, trivial⟩, h.2⟩, fun h => ⟨h.1.1, h.2⟩⟩
  | parameter value => exact ⟨fun h => ⟨trivial, h⟩, fun h => h.2⟩

/-- What is read as the arguments of a node are renderings of some that can follow those
before them, with commas between them and a parenthesis at the end. -/
theorem exists_of_readArguments (hnode : ReadsRenderings node levels)
    (h : readArguments node stop args tokens = .ok ⟨args', rest, shorter⟩) :
    ∃ as parts front, as ≠ [] ∧ tokens = front ++ rest ∧
      List.Forall₂ Tree.Argument.Renders as parts ∧
      front.map Token.lexeme = List.intercalate [.comma] parts ++ [.closeParen] ∧
      (∀ arg ∈ as, arg.Fits levels ∧ arg.Unnumbered) ∧ args.Admits as ∧
      args' = as.foldl Arguments.add args := by
  fun_induction readArguments node stop args tokens with
  | case1 => cases h
  | case2 => cases h
  | case3 => cases h
  | case4 args tokens args₁ token rest shorter hread closer hcomma args₂ left le hmore ih =>
    -- A comma: the other arguments follow it.
    cases h
    obtain ⟨arg, front, htokens, hrenders, hfits, hplain, hadmits, hadd⟩ :=
      exists_of_readArgument hnode hread
    obtain ⟨as, parts, front', hne, hrest, hparts, hfront', hall, hadmits', hfold⟩ := ih hmore
    obtain rfl : args₁ = args.add arg := hadd
    refine ⟨arg :: as, front.map Token.lexeme :: parts, front ++ token :: front', nofun,
      ?_, .cons hrenders hparts, ?_, List.forall_mem_cons.mpr ⟨⟨hfits, hplain⟩, hall⟩,
      admits_cons.mpr ⟨hadmits, hadmits'⟩, hfold⟩
    · rw [htokens, hrest, List.append_assoc, List.cons_append]
    · cases hparts with
      | nil => exact absurd rfl hne
      | cons hpart hparts' =>
        rw [List.map_append, List.map_cons, hcomma, hfront', List.intercalate_cons_cons,
          List.append_assoc, List.append_assoc]
        rfl
  | case5 args tokens args₁ token rest shorter hread closer hclose =>
    cases h
    obtain ⟨arg, front, htokens, hrenders, hfits, hplain, hadmits, hadd⟩ :=
      exists_of_readArgument hnode hread
    refine ⟨[arg], [front.map Token.lexeme], front ++ [token], nofun, ?_,
      .cons hrenders .nil, ?_, List.forall_mem_singleton.mpr ⟨hfits, hplain⟩, hadmits, hadd⟩
    · rw [htokens, List.append_assoc]
      rfl
    · rw [List.map_append, List.map_singleton, hclose, List.intercalate_singleton]
  | case6 => cases h

/-- Arguments of which no child stands behind a parameter are children and then parameters. -/
theorem exists_of_admits {as : List Tree.Argument} (h : args.Admits as) :
    ∃ (ts : List Tree) (vs : List Float32),
      as = ts.map Tree.Argument.child ++ vs.map Tree.Argument.parameter ∧
      (args.parameters ≠ [] → ts = []) := by
  induction as generalizing args with
  | nil => exact ⟨[], [], rfl, fun _ => rfl⟩
  | cons arg as ih =>
    cases arg with
    | child t =>
      obtain ⟨hargs, hadmits⟩ := h
      obtain ⟨ts, vs, rfl, -⟩ := ih hadmits
      exact ⟨t :: ts, vs, rfl, fun hne => absurd hargs hne⟩
    | parameter value =>
      obtain ⟨ts, vs, rfl, hnone⟩ := ih h
      obtain rfl : ts = [] := hnone (by simp [Arguments.add, Arguments.addParameter])
      exact ⟨[], value :: vs, rfl, fun _ => rfl⟩

theorem eq_cons_of_skip? {wanted : Lexeme} {left : Rest tokens}
    (h : skip? wanted tokens = some left) :
    ∃ token, tokens = token :: left.1 ∧ token.lexeme = wanted := by
  unfold skip? at h
  split at h
  · cases h
  · rename_i token rest
    split at h
    · rename_i hlexeme
      cases h
      exact ⟨token, rfl, hlexeme⟩
    · cases h

/-- What is read as the argument list of a node are renderings of some children and of some
parameters, which a node of any kind that has them is rendered with. -/
theorem exists_of_readArgumentList (hnode : ReadsRenderings node levels)
    {left : Rest tokens} (h : readArgumentList node stop tokens = .ok (args, left)) :
    ∃ front, tokens = front ++ left.1 ∧
      (∀ t ∈ args.children, t.erased = t ∧ t.depth ≤ levels) ∧
      ∀ kind : Kind, RendersNode kind ((args.children.map Tree.Argument.child ++
        args.parameters.map Tree.Argument.parameter).map Tree.Argument.Renders)
          (.name kind.name :: front.map Token.lexeme) := by
  unfold readArgumentList at h
  split at h
  · cases h
    exact ⟨[], rfl, nofun, fun kind => .bare rfl⟩
  · rename_i inner le hopen
    obtain ⟨opening, htokens, hopening⟩ := eq_cons_of_skip? hopen
    split at h
    · rename_i rest le' hclose
      obtain ⟨closing, hinner, hclosing⟩ := eq_cons_of_skip? hclose
      cases h
      refine ⟨[opening, closing], htokens.trans (congrArg _ hinner), nofun, fun kind => ?_⟩
      rw [List.map_cons, List.map_singleton, hopening, hclosing]
      exact .empty rfl
    · split at h
      · cases h
      · rename_i args' rest shorter hread
        cases h
        obtain ⟨as, parts, front, hne, hinner, hparts, hfront, hall, hadmits, hfold⟩ :=
          exists_of_readArguments hnode hread
        obtain ⟨ts, vs, rfl, -⟩ := exists_of_admits hadmits
        rw [List.foldl_append, foldl_add_children, foldl_add_parameters] at hfold
        have hchildren : ∀ t ∈ ts, t.erased = t ∧ t.depth ≤ levels := fun t ht => by
          have h := hall (.child t) (List.mem_append_left _ (List.mem_map_of_mem ht))
          exact ⟨h.2, h.1⟩
        have herased : ts.map Tree.erased = ts :=
          (List.map_congr_left fun t ht => (hchildren t ht).1).trans (List.map_id ts)
        rw [herased] at hfold
        subst hfold
        refine ⟨opening :: front, htokens.trans (congrArg _ hinner), hchildren, fun kind => ?_⟩
        rw [List.map_cons, hopening, hfront]
        exact .applied (by simpa using hne) (List.forall₂_map_left_iff.mpr hparts)

/-! ### A node -/

theorem make_of_buildNode {name : String} {kind : Kind} {start : Nat} {t : Tree}
    (h : buildNode name kind start args = .ok t) :
    Tree.make 0 kind args.children args.parameters = .ok t := by
  unfold buildNode at h
  split at h
  · rename_i hmake
    cases h
    exact hmake
  · cases h
  · cases h

/-- **Whatever is read as a node is a rendering of the tree that comes of it.** -/
theorem readsRenderings_readNode (stop levels : Nat) :
    ReadsRenderings (readNode stop levels) levels := by
  induction levels with
  | zero =>
    intro tokens t rest shorter h
    cases tokens with
    | nil => cases h
    | cons token tokens => cases h
  | succ levels ih =>
    intro tokens t rest shorter h
    cases tokens with
    | nil => cases h
    | cons token tokens =>
      simp only [readNode] at h
      split at h
      · rename_i name hname
        split at h
        · cases h
        · rename_i kind hkind
          obtain rfl := Kind.ofName?_eq_some_iff.mp hkind
          split at h
          · cases h
          · rename_i args left le hlist
            split at h
            · cases h
            · rename_i tree hbuild
              cases h
              obtain ⟨front, hfront, hchildren, hrenders⟩ := exists_of_readArgumentList ih hlist
              obtain ⟨hid, rfl, hc, hp⟩ := Tree.make_eq_ok_iff.mp (make_of_buildNode hbuild)
              rw [← hc, ← hp] at hrenders
              rw [← hc] at hchildren
              refine ⟨Tree.erased_eq_self hid fun c hc => (hchildren c hc).1,
                Tree.depth_le_succ_iff.mpr fun c hc => (hchildren c hc).2,
                token :: front, congrArg _ hfront, ?_⟩
              rw [Tree.renders_eq, List.map_cons, hname]
              exact hrenders t.kind
      · cases h

/-- A list of tokens is read as a tree if and only if it is a rendering of the tree, which is
not too deep and numbered. -/
theorem readTokens_eq_ok_iff {tokens : Tokens} {t : Tree} : readTokens tokens = .ok t ↔
    t.Renders (tokens.body.map Token.lexeme) ∧ t.depth ≤ Tree.maxDepth ∧
      t.ids = List.range t.nodeCount := by
  constructor
  · intro h
    unfold readTokens at h
    split at h
    · cases h
    · rename_i tree shorter hread
      cases h
      obtain ⟨-, hdepth, front, hfront, hrenders⟩ := readsRenderings_readNode _ _ _ _ _ _ hread
      rw [Tree.renders_numbered, Tree.depth_numbered, hfront, List.append_nil]
      exact ⟨hrenders, hdepth, tree.ids_numbered⟩
    · cases h
  · rintro ⟨hrenders, hdepth, hids⟩
    rw [(readTokens_reads hrenders).1 hdepth, Tree.numbered_erased hids]

/-- The tokens of a text, up to the end of it, are a rendering of the tree. -/
def Denotes (s : String) (t : Tree) : Prop :=
  ∃ tokens ls, lex (String.ofList (Text.trim s.toList)) = .ok tokens ∧
    tokens.toList.map Token.lexeme = ls ++ [.endOfText] ∧ t.Renders ls

theorem denotes_iff {s : String} {t : Tree} : Denotes s t ↔
    ∃ tokens, lex (String.ofList (Text.trim s.toList)) = .ok tokens ∧
      t.Renders (tokens.body.map Token.lexeme) := by
  have hbody (tokens : Tokens) : tokens.toList.map Token.lexeme =
      tokens.body.map Token.lexeme ++ [.endOfText] := by
    rw [Tokens.toList, List.map_append, List.map_singleton]
  constructor
  · rintro ⟨tokens, ls, hlex, hls, hrenders⟩
    obtain rfl := List.append_cancel_right ((hbody tokens).symm.trans hls)
    exact ⟨tokens, hlex, hrenders⟩
  · rintro ⟨tokens, hlex, hrenders⟩
    exact ⟨tokens, _, hlex, hbody tokens, hrenders⟩

/-- A text is read as a tree if and only if it denotes the tree, the tree is not too deep and
its nodes are numbered in post-order. -/
theorem parse_eq_ok_iff_denotes {s : String} {t : Tree} : parse s = .ok t ↔
    Denotes s t ∧ t.depth ≤ Tree.maxDepth ∧ t.ids = List.range t.nodeCount := by
  rw [denotes_iff, parse]
  cases lex (String.ofList (Text.trim s.toList)) with
  | error e => simp
  | ok tokens => simp [readTokens_eq_ok_iff]

end Expression

end GrammarArt
