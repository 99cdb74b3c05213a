import GrammarArt.Proofs.Expression.Reading

/-! # The canonical text of a tree is read back

A tree is printed and read again.  If all its parameters are finite and its nodes are
numbered in post-order, as those of every tree that was read or derived are, what is read is
the same tree, with the same identifiers and with parameters that agree to the bit.  A tree
that is too deep is printed all the same, but its text is refused.
-/
namespace GrammarArt.Expression

/-- A rendering of a tree, and nothing behind it, is the tree up to its identifiers. -/
theorem readTokens_reads {t : Tree} {tokens : Tokens}
    (h : t.Renders (tokens.body.map Token.lexeme)) :
    (t.depth ≤ Tree.maxDepth → readTokens tokens = .ok t.erased.numbered) ∧
      (Tree.maxDepth < t.depth →
        ∃ offset, readTokens tokens = .error ⟨offset, .tooDeep⟩) := by
  have hread := readsTree_readNode tokens.stop t Tree.maxDepth tokens.body tokens.body []
    (List.append_nil _).symm h nofun
  rw [readTokens]
  generalize readNode tokens.stop Tree.maxDepth tokens.body = result at hread
  cases hread with
  | read hfits shorter =>
    exact ⟨fun _ => rfl, fun hdeep => absurd hfits (Nat.not_le.mpr hdeep)⟩
  | tooDeep hfits offset => exact ⟨fun hdepth => absurd hdepth hfits, fun _ => ⟨offset, rfl⟩⟩

/-- **The canonical text of a tree is read back as the tree**, if the tree is not too deep;
otherwise the text is refused. -/
theorem parse_render {t : Tree} (hfinite : t.FiniteParameters)
    (hids : t.ids = List.range t.nodeCount) :
    (t.depth ≤ Tree.maxDepth → parse t.render = .ok t) ∧
      (Tree.maxDepth < t.depth → ∃ offset, parse t.render = .error ⟨offset, .tooDeep⟩) := by
  obtain ⟨tokens, hrenders, hlex⟩ := t.exists_lex_render hfinite
  have hread := readTokens_reads hrenders
  rw [Tree.numbered_erased hids] at hread
  rw [parse, hlex]
  exact hread

/-- A negative zero, the least positive number and the greatest finite one. -/
theorem parse_render_extremes :
    ∃ t : Tree, t.parameters = [Float32.ofBits 0x80000000, Float32.ofBits 1,
        Float32.ofBits 0x7f7fffff] ∧ t.FiniteParameters ∧ t.ids = List.range t.nodeCount ∧
      (t.depth ≤ Tree.maxDepth → parse t.render = .ok t) ∧
      (Tree.maxDepth < t.depth → ∃ offset, parse t.render = .error ⟨offset, .tooDeep⟩) := by
  have hfinite : (Tree.terminal 0 (.rgb (Float32.ofBits 0x80000000) (Float32.ofBits 1)
      (Float32.ofBits 0x7f7fffff))).FiniteParameters := ⟨by decide, nofun⟩
  exact ⟨_, rfl, hfinite, rfl, parse_render hfinite rfl⟩

end GrammarArt.Expression
