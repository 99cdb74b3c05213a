import GrammarArt.Proofs.Expression.Language

/-! # Texts that are refused

A text that is no rendering of any tree is refused.  To see of a text that it is none, one
does not want to go through all trees.  This file has three ways around it.

* What stands directly before a lexeme bounds what the lexeme can be.  `Behind` is what has
  to be remembered of the lexemes before a place, and a rendering never leaves it
  (`Tree.Renders.walk_eq`).  So no rendering has a comma before a closing parenthesis, a child
  behind a parameter, or a minus sign before a name.
* A rendering can be told from what follows it (`rendersNode_unique`): no text has two
  readings, and nothing but a parenthesis can follow a rendering so as to make another one.
* Every name in a rendering begins the rendering of a node (`Tree.Renders.exists_node`), so a
  node with too many or too few arguments is wrong wherever it stands.
-/
namespace GrammarArt

open Expression

namespace Expression

/-! ### What can stand behind what -/

/-- What stands before a place in a list of lexemes. -/
inductive Behind where
  | nothing
  | name
  | openParen
  | parameter
  | closeParen
  | comma (afterParameter : Bool)
  | minus

namespace Behind

/-- What stands before the next place, if the lexeme can stand here. -/
def next? : Behind → Lexeme → Option Behind
  | nothing, .name _ | openParen, .name _ | comma false, .name _ => some name
  | openParen, .number _ | comma _, .number _ | minus, .number _ => some parameter
  | openParen, .minus | comma _, .minus => some minus
  | name, .openParen => some openParen
  | name, .comma | closeParen, .comma => some (comma false)
  | parameter, .comma => some (comma true)
  | name, .closeParen | openParen, .closeParen => some closeParen
  | parameter, .closeParen | closeParen, .closeParen => some closeParen
  | _, _ => none

/-- What stands behind some lexemes, if they can stand here. -/
def walk (b : Behind) (ls : List Lexeme) : Option Behind := ls.foldlM next? b

theorem walk_append (b : Behind) (ls ls' : List Lexeme) :
    b.walk (ls ++ ls') = (b.walk ls).bind (·.walk ls') :=
  List.foldlM_append

/-- A child can stand here. -/
inductive AdmitsChild : Behind → Prop where
  | nothing : AdmitsChild nothing
  | openParen : AdmitsChild openParen
  | comma : AdmitsChild (comma false)

/-- A parameter can stand here. -/
inductive AdmitsParameter : Behind → Prop where
  | openParen : AdmitsParameter openParen
  | comma (afterParameter : Bool) : AdmitsParameter (comma afterParameter)

/-- The last lexeme of a child stands here. -/
inductive EndsChild : Option Behind → Prop where
  | name : EndsChild (some name)
  | closeParen : EndsChild (some closeParen)

variable {b : Behind}

theorem walk_parameter (hb : b.AdmitsParameter) {v : Float32} {ls : List Lexeme}
    (h : RendersParameter v ls) : b.walk ls = some parameter := by
  cases h with
  | plain _ | negated _ => rcases hb with _ | ⟨_ | _⟩ <;> rfl

theorem walk_parameters (hb : b.AdmitsParameter) {vs : List Float32} {parts : List (List Lexeme)}
    (hne : vs ≠ []) (h : List.Forall₂ RendersParameter vs parts) :
    b.walk (List.intercalate [.comma] parts ++ [.closeParen]) = some closeParen := by
  induction h generalizing b with
  | nil => exact absurd rfl hne
  | @cons v part vs parts hpart hparts ih =>
    cases hparts with
    | nil =>
      rw [List.intercalate_singleton, walk_append, walk_parameter hb hpart]
      rfl
    | cons hnext hparts =>
      rw [List.intercalate_cons_cons, List.append_assoc, List.append_assoc, walk_append,
        walk_parameter hb hpart]
      exact ih (.comma true) (List.cons_ne_nil _ _)

/-- The children of a node, its parameters and the parenthesis behind them. -/
theorem walk_arguments {ts : List Tree} {vs : List Float32} {parts : List (List Lexeme)}
    (hchildren : ∀ t ∈ ts, ∀ ls, t.Renders ls → ∀ b : Behind, b.AdmitsChild → EndsChild (b.walk ls))
    (hb : b = openParen ∨ b = comma false) (hne : parts ≠ [])
    (h : List.Forall₂ Tree.Argument.Renders
      (ts.map Tree.Argument.child ++ vs.map Tree.Argument.parameter) parts) :
    b.walk (List.intercalate [.comma] parts ++ [.closeParen]) = some closeParen := by
  induction ts generalizing b parts with
  | nil =>
    have hparameter : b.AdmitsParameter := by rcases hb with rfl | rfl <;> constructor
    rw [List.map_nil, List.nil_append, List.forall₂_map_left_iff] at h
    have hparts : List.Forall₂ RendersParameter vs parts := h
    refine walk_parameters hparameter (fun hvs => hne ?_) hparts
    rw [hvs] at hparts
    exact List.forall₂_nil_left_iff.mp hparts
  | cons t ts ih =>
    have hchild : b.AdmitsChild := by rcases hb with rfl | rfl <;> constructor
    rw [List.map_cons, List.cons_append] at h
    cases h with
    | @cons _ part _ parts hpart hparts =>
      have hend := hchildren t List.mem_cons_self part hpart b hchild
      have hothers : ∀ t ∈ ts, ∀ ls, t.Renders ls → ∀ b : Behind, b.AdmitsChild →
          EndsChild (b.walk ls) := fun t ht => hchildren t (List.mem_cons_of_mem _ ht)
      cases parts with
      | nil =>
        rw [List.intercalate_singleton, walk_append]
        generalize b.walk part = here at hend
        cases hend with
        | name | closeParen => rfl
      | cons part' parts =>
        rw [List.intercalate_cons_cons, List.append_assoc, List.append_assoc, walk_append]
        have hcomma := ih hothers (.inr rfl) (List.cons_ne_nil _ _) hparts
        generalize b.walk part = here at hend
        cases hend with
        | name | closeParen => exact hcomma

end Behind

end Expression

namespace Tree.Renders

open Behind

/-- **A rendering never leaves what can stand behind what.** -/
theorem endsChild_walk {t : Tree} {ls : List Lexeme} (h : t.Renders ls) {b : Behind}
    (hb : b.AdmitsChild) : EndsChild (b.walk ls) := by
  induction t using induct generalizing ls b with
  | step t ih =>
    have hname (rest : List Lexeme) :
        b.walk (.name t.kind.name :: rest) = Behind.name.walk rest := by
      cases hb <;> rfl
    rw [renders_eq] at h
    cases h with
    | bare _ =>
      rw [hname]
      exact .name
    | empty _ =>
      rw [hname]
      exact .closeParen
    | @applied parts hne hparts =>
      have hparts' : parts ≠ [] := by
        rintro rfl
        exact hne (List.forall₂_nil_right_iff.mp hparts)
      rw [List.forall₂_map_left_iff] at hparts
      have hend : Behind.openParen.walk (List.intercalate [.comma] parts ++ [.closeParen]) =
          some .closeParen :=
        walk_arguments (fun c hc ls hls b hb => ih c hc hls hb) (.inl rfl) hparts' hparts
      rw [hname]
      exact hend ▸ EndsChild.closeParen

/-- What cannot stand anywhere does not stand in a rendering. -/
theorem not_of_walk_eq_none {t : Tree} {part : List Lexeme} (h : ∀ b : Behind, b.walk part = none)
    (front back : List Lexeme) : ¬ t.Renders (front ++ part ++ back) := by
  intro hrenders
  have hend := hrenders.endsChild_walk .nothing
  rw [walk_append, walk_append] at hend
  cases hfront : Behind.nothing.walk front with
  | none =>
    rw [hfront] at hend
    cases hend
  | some b =>
    rw [hfront, Option.bind_some, h] at hend
    cases hend

end Tree.Renders

namespace Expression

/-! ### What can follow a rendering -/

/-- The lexemes end with a parenthesis, or the rest does not begin with one. -/
def Ended (front rest : List Lexeme) : Prop :=
  front.getLast? = some .closeParen ∨ rest.head? ≠ some .openParen

/-- A lexeme as a token of no place in particular. -/
def unplaced (l : Lexeme) : Token := ⟨l, 0, 0⟩

theorem map_lexeme_map_unplaced (ls : List Lexeme) :
    (ls.map unplaced).map Token.lexeme = ls := by
  rw [List.map_map]
  exact List.map_id ls

/-- A rendering of the arguments of a node is read, whatever kind the node is of. -/
theorem exists_readArgumentList {kind : Kind} {ts : List Tree} {vs : List Float32} {levels : Nat}
    {ls front rest : List Lexeme} (hlevels : ∀ t ∈ ts, t.depth ≤ levels) (hls : ls = front ++ rest)
    (h : RendersNode kind ((ts.map Tree.Argument.child ++
      vs.map Tree.Argument.parameter).map Tree.Argument.Renders) (.name kind.name :: front))
    (hrest : rest.head? ≠ some .openParen) :
    ∃ le, readArgumentList (readNode 0 levels) 0 (ls.map unplaced) =
      .ok (⟨ts.map Tree.erased, vs⟩, ⟨rest.map unplaced, le⟩) := by
  have hfollows : Follows (rest.map unplaced) := by
    intro token htoken hopen
    rw [List.head?_map, Option.mem_def, Option.map_eq_some_iff] at htoken
    obtain ⟨l, hl, rfl⟩ := htoken
    exact hrest (hl.trans (congrArg some hopen))
  subst hls
  rw [← map_lexeme_map_unplaced front] at h
  have hreads := readArgumentList_reads 0 (fun t _ => readsTree_readNode 0 t levels)
    (List.map_append (f := unplaced)) h hfollows
  generalize readArgumentList (readNode 0 levels) 0 ((front ++ rest).map unplaced) = result
    at hreads
  cases hreads with
  | read _ le => exact ⟨le, rfl⟩
  | tooDeep hdeep _ =>
    refine absurd (fun arg harg => ?_) hdeep
    rcases List.mem_append.mp harg with hmem | hmem
    · obtain ⟨t, ht, rfl⟩ := List.mem_map.mp hmem
      exact hlevels t ht
    · obtain ⟨v, -, rfl⟩ := List.mem_map.mp hmem
      exact trivial

/-- Two renderings of nodes of one kind that begin one list of lexemes are one rendering. -/
theorem rendersNode_unique {kind : Kind} {ts us : List Tree} {vs ws : List Float32}
    {front front' rest rest' : List Lexeme}
    (h : RendersNode kind ((ts.map Tree.Argument.child ++
      vs.map Tree.Argument.parameter).map Tree.Argument.Renders) (.name kind.name :: front))
    (h' : RendersNode kind ((us.map Tree.Argument.child ++
      ws.map Tree.Argument.parameter).map Tree.Argument.Renders) (.name kind.name :: front'))
    (heq : front ++ rest = front' ++ rest')
    (hrest : rest.head? ≠ some .openParen) (hrest' : rest'.head? ≠ some .openParen) :
    ts.map Tree.erased = us.map Tree.erased ∧ vs = ws ∧ rest = rest' := by
  have hlevels : ∀ t ∈ ts ++ us, t.depth ≤ ((ts ++ us).map Tree.depth).sum :=
    fun t ht => List.le_sum_of_mem (List.mem_map_of_mem ht)
  obtain ⟨le, hread⟩ :=
    exists_readArgumentList (fun t ht => hlevels t (List.mem_append_left _ ht)) rfl h hrest
  obtain ⟨le', hread'⟩ :=
    exists_readArgumentList (fun t ht => hlevels t (List.mem_append_right _ ht)) heq h' hrest'
  simp only [hread', Except.ok.injEq, Prod.mk.injEq, Arguments.mk.injEq,
    Subtype.mk.injEq] at hread
  obtain ⟨⟨hchildren, hparameters⟩, hmap⟩ := hread
  have hsame := congrArg (List.map Token.lexeme) hmap
  rw [map_lexeme_map_unplaced, map_lexeme_map_unplaced] at hsame
  exact ⟨hchildren.symm, hparameters.symm, hsame.symm⟩

end Expression

namespace Tree

/-- **Two renderings that begin one list of lexemes are renderings of one tree**, and end at
one place. -/
theorem Renders.unique {t u : Tree} {front front' rest rest' : List Lexeme}
    (h : t.Renders front) (h' : u.Renders front') (heq : front ++ rest = front' ++ rest')
    (hrest : rest.head? ≠ some .openParen) (hrest' : rest'.head? ≠ some .openParen) :
    t.erased = u.erased ∧ rest = rest' := by
  obtain ⟨ls, rfl⟩ := h.exists_eq_cons
  obtain ⟨ls', rfl⟩ := h'.exists_eq_cons
  obtain ⟨hname, htail⟩ := List.cons_eq_cons.mp heq
  have hkind : t.kind = u.kind := Kind.name_injective (Lexeme.name.inj hname)
  rw [renders_eq] at h h'
  rw [← hkind] at h'
  obtain ⟨hchildren, hparameters, rfl⟩ := rendersNode_unique h h' htail hrest hrest'
  have hmake := u.make_erased
  rw [← hkind, ← hchildren, ← hparameters, t.make_erased] at hmake
  exact ⟨Except.ok.inj hmake, rfl⟩

/-! ### Where the nodes are -/

/-- Two ways to split a list at different elements: one of them comes first. -/
theorem split_of_append_cons {α : Type} {x y : α} (hne : x ≠ y) {as bs cs ds : List α}
    (h : as ++ x :: bs = cs ++ y :: ds) :
    (∃ ls, as = cs ++ y :: ls ∧ ds = ls ++ x :: bs) ∨
      ∃ ls, cs = as ++ x :: ls ∧ bs = ls ++ y :: ds := by
  rcases List.append_eq_append_iff.mp h with ⟨ls, rfl, hls⟩ | ⟨ls, rfl, hls⟩
  · cases ls with
    | nil => exact absurd (List.cons_eq_cons.mp hls).1 hne
    | cons z ls =>
      obtain ⟨rfl, rfl⟩ := List.cons_eq_cons.mp hls
      exact .inr ⟨ls, rfl, rfl⟩
  · cases ls with
    | nil => exact absurd (List.cons_eq_cons.mp hls).1.symm hne
    | cons z ls =>
      obtain ⟨rfl, rfl⟩ := List.cons_eq_cons.mp hls
      exact .inl ⟨ls, rfl, rfl⟩

/-- A name among the arguments of a node is in the rendering of one of them. -/
theorem exists_argument {args : List Argument} {parts : List (List Lexeme)}
    (h : List.Forall₂ Argument.Renders args parts) {name : String} {front back : List Lexeme}
    (heq : List.intercalate [.comma] parts ++ [.closeParen] = front ++ .name name :: back) :
    ∃ arg ∈ args, ∃ front' ls rest, arg.Renders (front' ++ .name name :: ls) ∧
      back = ls ++ rest ∧ rest.head? ≠ some .openParen := by
  induction h generalizing front with
  | nil =>
    rcases split_of_append_cons (by simp) heq with ⟨ls, hnil, -⟩ | ⟨ls, -, hnil⟩
    · exact absurd hnil (by simp)
    · exact absurd hnil (by simp)
  | @cons arg part args parts hpart hparts ih =>
    cases hparts with
    | nil =>
      rw [List.intercalate_singleton] at heq
      rcases split_of_append_cons (by simp) heq with ⟨ls, rfl, rfl⟩ | ⟨ls, -, hnil⟩
      · exact ⟨arg, List.mem_cons_self, front, ls, _, hpart, rfl, by simp⟩
      · exact absurd hnil (by simp)
    | cons hnext hparts =>
      rw [List.intercalate_cons_cons, List.append_assoc, List.append_assoc] at heq
      rcases split_of_append_cons (by simp) heq with ⟨ls, rfl, rfl⟩ | ⟨ls, -, hrest⟩
      · exact ⟨arg, List.mem_cons_self, front, ls, _, hpart, rfl, by simp⟩
      · obtain ⟨other, hother, hexists⟩ := ih hrest
        exact ⟨other, List.mem_cons_of_mem _ hother, hexists⟩

/-- **Every name in a rendering begins the rendering of a node.** -/
theorem Renders.exists_node {t : Tree} {name : String} {front back : List Lexeme}
    (h : t.Renders (front ++ .name name :: back)) :
    ∃ node : Tree, ∃ ls rest, node.Renders (.name name :: ls) ∧ back = ls ++ rest ∧
      rest.head? ≠ some .openParen := by
  induction t using induct generalizing front back with
  | step t ih =>
    cases front with
    | nil => exact ⟨t, back, [], h, (List.append_nil _).symm, nofun⟩
    | cons first front =>
      rw [renders_eq, List.cons_append] at h
      generalize hls : front ++ .name name :: back = ls at h
      cases h with
      | bare _ => exact absurd hls (by simp)
      | empty _ =>
        have hmem : Lexeme.name name ∈ [Lexeme.openParen, .closeParen] :=
          hls ▸ List.mem_append_right _ List.mem_cons_self
        exact absurd hmem (by simp)
      | @applied parts hne hparts =>
        rw [List.forall₂_map_left_iff] at hparts
        cases front with
        | nil => cases hls
        | cons second front =>
          obtain ⟨rfl, hinner⟩ := List.cons_eq_cons.mp hls
          obtain ⟨arg, harg, front', ls, rest, hrenders, rfl, hrest⟩ :=
            exists_argument hparts hinner.symm
          obtain ⟨c, hc, rfl⟩ | ⟨v, -, rfl⟩ :
              (∃ c ∈ t.children, .child c = arg) ∨ ∃ v ∈ t.parameters, .parameter v = arg := by
            simpa [arguments] using harg
          · obtain ⟨node, ls', rest', hnode, rfl, hrest'⟩ := ih c hc hrenders
            refine ⟨node, ls', rest' ++ rest, hnode, List.append_assoc _ _ _, ?_⟩
            cases rest' with
            | nil => exact hrest
            | cons l rest' => exact hrest'
          · generalize hpart : front' ++ .name name :: ls = part at hrenders
            have hmem : Lexeme.name name ∈ part :=
              hpart ▸ List.mem_append_right _ List.mem_cons_self
            cases hrenders with
            | plain _ | negated _ => exact absurd hmem (by simp)

end Tree

/-! ### Texts that are malformed -/

namespace Expression

/-- Some ways in which lexemes are no rendering. -/
inductive Malformed : List Lexeme → Prop where
  /-- There is something behind an expression. -/
  | trailing {t : Tree} {front rest : List Lexeme} (h : t.Renders front) (hrest : rest ≠ [])
    (hended : Ended front rest) : Malformed (front ++ rest)
  /-- There is a comma behind the last argument of a node. -/
  | trailingComma (front back : List Lexeme) : Malformed (front ++ [.comma, .closeParen] ++ back)
  | childAfterParameter (front : List Lexeme) (value : Float32) (name : String)
    (back : List Lexeme) : Malformed (front ++ [.number value, .comma, .name name] ++ back)
  | negatedChild (front : List Lexeme) (name : String) (back : List Lexeme) :
    Malformed (front ++ [.minus, .name name] ++ back)
  /-- A node has too many or too few children or parameters. -/
  | counts {kind : Kind} {ts : List Tree} {vs : List Float32} (front : List Lexeme)
    {node back : List Lexeme}
    (hcounts : ts.length ≠ kind.arity ∨ vs.length ≠ kind.parameters.length)
    (h : RendersNode kind ((ts.map Tree.Argument.child ++
      vs.map Tree.Argument.parameter).map Tree.Argument.Renders) node)
    (hended : Ended node back) : Malformed (front ++ node ++ back)

/-- In a rendering, nothing that has ended has a parenthesis behind it. -/
theorem Ended.head?_ne {t : Tree} {front part back : List Lexeme} (hended : Ended part back)
    (h : t.Renders (front ++ part ++ back)) : back.head? ≠ some .openParen := by
  rintro hopen
  obtain ⟨back, rfl⟩ := List.head?_eq_some_iff.mp hopen
  rcases hended with hclose | hother
  · obtain ⟨part, rfl⟩ := List.getLast?_eq_some_iff.mp hclose
    have hnone : ∀ b : Behind, b.walk [.closeParen, .openParen] = none := by
      rintro (_ | _ | _ | _ | _ | ⟨_ | _⟩ | _) <;> rfl
    exact Tree.Renders.not_of_walk_eq_none hnone (front ++ part) back (by simpa using h)
  · exact hother rfl

theorem Malformed.not_renders {ls : List Lexeme} (h : Malformed ls) (t : Tree) :
    ¬ t.Renders ls := by
  intro hrenders
  cases h with
  | @trailing u front rest hfront hrest hended =>
    have hinfix : t.Renders ([] ++ front ++ rest) := hrenders
    have hhead := hended.head?_ne hinfix
    obtain ⟨-, hnil⟩ := hfront.unique hrenders (List.append_nil _).symm hhead nofun
    exact hrest hnil
  | trailingComma front back =>
    refine Tree.Renders.not_of_walk_eq_none (fun b => ?_) front back hrenders
    rcases b with _ | _ | _ | _ | _ | ⟨_ | _⟩ | _ <;> rfl
  | childAfterParameter front value name back =>
    refine Tree.Renders.not_of_walk_eq_none (fun b => ?_) front back hrenders
    rcases b with _ | _ | _ | _ | _ | ⟨_ | _⟩ | _ <;> rfl
  | negatedChild front name back =>
    refine Tree.Renders.not_of_walk_eq_none (fun b => ?_) front back hrenders
    rcases b with _ | _ | _ | _ | _ | ⟨_ | _⟩ | _ <;> rfl
  | @counts kind ts vs front node back hcounts hnode hended =>
    have hhead := hended.head?_ne hrenders
    obtain ⟨ls, rfl⟩ : ∃ ls, node = .name kind.name :: ls := by
      cases hnode with
      | bare _ | empty _ | applied _ _ => exact ⟨_, rfl⟩
    rw [List.append_assoc, List.cons_append] at hrenders
    obtain ⟨u, ls', rest, hu, heq, hrest⟩ := hrenders.exists_node
    obtain ⟨_, hcons⟩ := hu.exists_eq_cons
    obtain ⟨hname, rfl⟩ := List.cons_eq_cons.mp hcons
    obtain rfl : kind = u.kind := Kind.name_injective (Lexeme.name.inj hname)
    rw [Tree.renders_eq] at hu
    obtain ⟨hchildren, rfl, -⟩ := rendersNode_unique hnode hu heq hhead hrest
    have hlength := congrArg List.length hchildren
    rw [List.length_map, List.length_map, Tree.length_children] at hlength
    exact hcounts.elim (· hlength) (· u.length_parameters)

/-- **The reader accepts exactly its language**: a text is read as a tree if and only if its
tokens are a rendering of the tree, which is not too deep and numbered in post-order.  A text
has at most one reading, and malformed texts are refused. -/
theorem parse_eq_ok_iff (s : String) :
    (∀ t : Tree, parse s = .ok t ↔
      Denotes s t ∧ t.depth ≤ Tree.maxDepth ∧ t.ids = List.range t.nodeCount) ∧
    (∀ t u : Tree, Denotes s t → Denotes s u → t.erased = u.erased) ∧
    ∀ tokens : Tokens, lex (String.ofList (Text.trim s.toList)) = .ok tokens →
      Malformed (tokens.body.map Token.lexeme) → ∃ e, parse s = .error e := by
  refine ⟨fun t => parse_eq_ok_iff_denotes, fun t u ht hu => ?_, fun tokens hlex hmalformed => ?_⟩
  · obtain ⟨tokens, hlex, hrenders⟩ := denotes_iff.mp ht
    obtain ⟨tokens', hlex', hrenders'⟩ := denotes_iff.mp hu
    obtain rfl : tokens = tokens' := Except.ok.inj (hlex.symm.trans hlex')
    have hnothing : ([] : List Lexeme).head? ≠ some .openParen := nofun
    exact (hrenders.unique hrenders' rfl hnothing hnothing).1
  · cases hparse : parse s with
    | error e => exact ⟨e, rfl⟩
    | ok t =>
      obtain ⟨hdenotes, -⟩ := parse_eq_ok_iff_denotes.mp hparse
      obtain ⟨tokens', hlex', hrenders⟩ := denotes_iff.mp hdenotes
      obtain rfl : tokens = tokens' := Except.ok.inj (hlex.symm.trans hlex')
      exact absurd hrenders (hmalformed.not_renders t)

/-- A text that is read, and one with a minus sign before a node, which is refused. -/
theorem parse_eq_ok_iff_x :
    parse "x ( )" = .ok (.terminal 0 .x) ∧
    (∀ t : Tree, Denotes "x ( )" t → (Tree.terminal 0 .x).erased = t.erased) ∧
    ∃ e, parse "exp(-x)" = .error e := by
  have hlex : lex (String.ofList (Text.trim "x ( )".toList)) =
      .ok ⟨[⟨.name "x", 0, 1⟩, ⟨.openParen, 2, 3⟩, ⟨.closeParen, 4, 5⟩], 5⟩ := by cbv
  have hrenders : RendersNode .x [] [.name "x", .openParen, .closeParen] := .empty rfl
  have hdenotes : Denotes "x ( )" (.terminal 0 .x) := ⟨_, _, hlex, rfl, hrenders⟩
  have hlex' : lex (String.ofList (Text.trim "exp(-x)".toList)) =
      .ok ⟨[⟨.name "exp", 0, 3⟩, ⟨.openParen, 3, 4⟩, ⟨.minus, 4, 5⟩, ⟨.name "x", 5, 6⟩,
        ⟨.closeParen, 6, 7⟩], 7⟩ := by cbv
  have hmalformed : Malformed [.name "exp", .openParen, .minus, .name "x", .closeParen] :=
    .negatedChild [.name "exp", .openParen] "x" [.closeParen]
  exact ⟨((parse_eq_ok_iff _).1 _).mpr ⟨hdenotes, by decide, rfl⟩,
    fun t ht => (parse_eq_ok_iff _).2.1 _ t hdenotes ht,
    (parse_eq_ok_iff _).2.2 _ hlex' hmalformed⟩

end Expression

end GrammarArt
