import GrammarArt.Tree.Basic

/-! # Identifiers of a tree

A tree that is read from a text has no identifiers until it is complete; it is then numbered
in post-order (`ids_numbered`).  A tree that is numbered in this way already is what comes of
its nodes alone (`numbered_erased`), and whatever is computed without the identifiers is the
same before and after (`fold_numbered`).
-/
namespace GrammarArt.Tree

/-- The tree with every identifier at zero. -/
def erased : Tree → Tree
  | terminal _ op => terminal 0 op
  | unary _ op a => unary 0 op a.erased
  | binary _ op a b => binary 0 op a.erased b.erased
  | ternary _ op a b c => ternary 0 op a.erased b.erased c.erased

theorem make_erased (t : Tree) :
    make 0 t.kind (t.children.map erased) t.parameters = .ok t.erased := by
  rw [make_eq_ok_iff]
  cases t with
  | terminal _ _ | unary _ _ _ | binary _ _ _ _ | ternary _ _ _ _ _ => exact ⟨rfl, rfl, rfl, rfl⟩

theorem erased_eq_self {t : Tree} (hid : t.id = 0) (h : ∀ c ∈ t.children, c.erased = c) :
    t.erased = t := by
  have hmake := t.make_erased
  rw [List.map_congr_left h, List.map_id'] at hmake
  exact (Except.ok.inj (hmake.symm.trans (make_eq_ok_iff.mpr ⟨hid, rfl, rfl, rfl⟩)))

/-- The identifiers that a tree has do not matter for numbering it. -/
theorem numberFrom_erased (t : Tree) (n : Nat) : numberFrom n t.erased = numberFrom n t := by
  induction t generalizing n with
  | terminal _ _ => rfl
  | unary _ _ a iha => simp only [erased, numberFrom, iha]
  | binary _ _ a b iha ihb => simp only [erased, numberFrom, iha, ihb]
  | ternary _ _ a b c iha ihb ihc => simp only [erased, numberFrom, iha, ihb, ihc]

/-! ### Trees that are numbered -/

/-- The identifiers of all nodes, children before their parents. -/
def ids (t : Tree) : List Nat := t.postOrder.map Prod.fst

theorem ids_eq (t : Tree) : t.ids = t.children.flatMap ids ++ [t.id] := by
  rw [ids, postOrder, fold_eq, List.map_append, List.map_flatten, List.map_map]
  rfl

theorem ids_terminal (id : Nat) (op : Terminal) : (terminal id op).ids = [id] := rfl

theorem ids_unary (id : Nat) (op : Unary) (a : Tree) : (unary id op a).ids = a.ids ++ [id] := by
  rw [ids_eq]
  show [a].flatMap ids ++ [id] = _
  simp

theorem ids_binary (id : Nat) (op : Binary) (a b : Tree) :
    (binary id op a b).ids = a.ids ++ (b.ids ++ [id]) := by
  rw [ids_eq]
  show [a, b].flatMap ids ++ [id] = _
  simp

theorem ids_ternary (id : Nat) (op : Ternary) (a b c : Tree) :
    (ternary id op a b c).ids = a.ids ++ (b.ids ++ (c.ids ++ [id])) := by
  rw [ids_eq]
  show [a, b, c].flatMap ids ++ [id] = _
  simp

theorem nodeCount_binary (id : Nat) (op : Binary) (a b : Tree) :
    (binary id op a b).nodeCount = a.nodeCount + (b.nodeCount + 1) := rfl

theorem nodeCount_ternary (id : Nat) (op : Ternary) (a b c : Tree) :
    (ternary id op a b c).nodeCount = a.nodeCount + (b.nodeCount + (c.nodeCount + 1)) := rfl

theorem length_ids (t : Tree) : t.ids.length = t.nodeCount := by
  induction t with
  | terminal _ _ => rfl
  | unary _ _ a iha =>
    rw [ids_unary, List.length_append, iha]
    rfl
  | binary _ _ a b iha ihb =>
    rw [ids_binary, List.length_append, List.length_append, iha, ihb]
    rfl
  | ternary _ _ a b c iha ihb ihc =>
    rw [ids_ternary, List.length_append, List.length_append, List.length_append, iha, ihb, ihc]
    rfl

/-- The tree has the numbers from `n` on, in post-order. -/
def NumberedFrom (n : Nat) (t : Tree) : Prop := t.ids = List.range' n t.nodeCount

/-- What comes first of numbers in a row are numbers in a row, and so is what follows. -/
theorem numberedFrom_of_append {t : Tree} {n k : Nat} {rest : List Nat}
    (h : t.ids ++ rest = List.range' n (t.nodeCount + k)) :
    t.NumberedFrom n ∧ rest = List.range' (n + t.nodeCount) k := by
  rw [← List.range'_append_1] at h
  refine List.append_inj h ?_
  rw [length_ids, List.length_range']

theorem numberFrom_eq {t : Tree} {n : Nat} (h : t.NumberedFrom n) :
    numberFrom n t = (t, n + t.nodeCount) := by
  induction t generalizing n with
  | terminal id op =>
    rw [NumberedFrom, ids_terminal] at h
    cases h
    rfl
  | unary id op a iha =>
    rw [NumberedFrom, ids_unary] at h
    obtain ⟨ha, hid⟩ := numberedFrom_of_append h
    cases hid
    rw [numberFrom, iha ha]
    rfl
  | binary id op a b iha ihb =>
    rw [NumberedFrom, ids_binary] at h
    obtain ⟨ha, hrest⟩ := numberedFrom_of_append h
    obtain ⟨hb, hid⟩ := numberedFrom_of_append hrest
    cases hid
    simp only [numberFrom, iha ha, ihb hb]
    simp only [nodeCount_binary, Nat.add_assoc]
  | ternary id op a b c iha ihb ihc =>
    rw [NumberedFrom, ids_ternary] at h
    obtain ⟨ha, hrest⟩ := numberedFrom_of_append h
    obtain ⟨hb, hrest'⟩ := numberedFrom_of_append hrest
    obtain ⟨hc, hid⟩ := numberedFrom_of_append hrest'
    cases hid
    simp only [numberFrom, iha ha, ihb hb, ihc hc]
    simp only [nodeCount_ternary, Nat.add_assoc]

/-- **A tree that is numbered in post-order is what comes of numbering its nodes.** -/
theorem numbered_erased {t : Tree} (h : t.ids = List.range t.nodeCount) :
    t.erased.numbered = t := by
  rw [numbered, numberFrom_erased, numberFrom_eq (h.trans List.range_eq_range')]

/-! ### What does not depend on identifiers -/

theorem fold_erased {α : Type} (f : Kind → List Float32 → List α → α) (t : Tree) :
    t.erased.fold (fun _ => f) = t.fold fun _ => f := by
  induction t with
  | terminal _ _ => rfl
  | unary _ _ a iha => rw [erased, fold, fold, iha]
  | binary _ _ a b iha ihb => rw [erased, fold, fold, iha, ihb]
  | ternary _ _ a b c iha ihb ihc => rw [erased, fold, fold, iha, ihb, ihc]

theorem erased_numberFrom (t : Tree) (n : Nat) : (numberFrom n t).1.erased = t.erased := by
  induction t generalizing n with
  | terminal _ _ => rfl
  | unary _ op a iha => exact congrArg (unary 0 op) (iha n)
  | binary _ op a b iha ihb =>
    show binary 0 op (numberFrom n a).1.erased (numberFrom _ b).1.erased = _
    rw [iha, ihb]
    rfl
  | ternary _ op a b c iha ihb ihc =>
    show ternary 0 op (numberFrom n a).1.erased (numberFrom _ b).1.erased
      (numberFrom _ c).1.erased = _
    rw [iha, ihb, ihc]
    rfl

/-- What is computed without the identifiers is the same for a tree and for the numbered one. -/
theorem fold_numbered {α : Type} (f : Kind → List Float32 → List α → α) (t : Tree) :
    t.numbered.fold (fun _ => f) = t.fold fun _ => f := by
  rw [← fold_erased, numbered, erased_numberFrom, fold_erased]

theorem depth_numbered (t : Tree) : t.numbered.depth = t.depth := fold_numbered _ t

theorem nodeCount_numbered (t : Tree) : t.numbered.nodeCount = t.nodeCount := fold_numbered _ t

/-- A numbered tree has the numbers in a row, and the next one is left. -/
theorem numberFrom_numbers (t : Tree) (n : Nat) :
    (numberFrom n t).1.ids = List.range' n t.nodeCount ∧
      (numberFrom n t).2 = n + t.nodeCount := by
  induction t generalizing n with
  | terminal _ _ => exact ⟨rfl, rfl⟩
  | unary _ op a iha =>
    obtain ⟨ha, hn⟩ := iha n
    refine ⟨?_, congrArg (· + 1) hn⟩
    show (unary _ op _).ids = List.range' n (a.nodeCount + 1)
    rw [ids_unary, ha, hn, ← List.range'_append_1]
    rfl
  | binary _ op a b iha ihb =>
    obtain ⟨ha, hn⟩ := iha n
    obtain ⟨hb, hm⟩ := ihb (n + a.nodeCount)
    simp only [numberFrom, hn, hm, ids_binary, ha, hb, nodeCount_binary]
    simp only [← List.range'_append_1, Nat.add_assoc]
    exact ⟨rfl, trivial⟩
  | ternary _ op a b c iha ihb ihc =>
    obtain ⟨ha, hn⟩ := iha n
    obtain ⟨hb, hm⟩ := ihb (n + a.nodeCount)
    obtain ⟨hc, hl⟩ := ihc (n + a.nodeCount + b.nodeCount)
    simp only [numberFrom, hn, hm, hl, ids_ternary, ha, hb, hc, nodeCount_ternary]
    simp only [← List.range'_append_1, Nat.add_assoc]
    exact ⟨rfl, trivial⟩

/-- **The nodes of a numbered tree are numbered in post-order from zero on.** -/
theorem ids_numbered (t : Tree) : t.numbered.ids = List.range t.numbered.nodeCount := by
  rw [nodeCount_numbered, List.range_eq_range']
  exact (numberFrom_numbers t 0).1

end GrammarArt.Tree
