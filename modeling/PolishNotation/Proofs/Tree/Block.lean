import PolishNotation.Proofs.Tree.Erased

namespace PolishNotation

theorem Token.Outranks.trans {first second third : Token} (upper : first.Outranks second)
    (lower : second.Outranks third) : first.Outranks third :=
  upper.of_not lower.asymm

/-- The token in front of the block outranks its tokens, and its tokens do not outrank the token
behind it. -/
structure IsBlock (before block after : List Token) : Prop where
  front : ∀ outer ∈ before.getLast?, ∀ token ∈ block, outer.Outranks token
  back : ∀ outer ∈ after.head?, ∀ token ∈ block, ¬ token.Outranks outer

namespace IsBlock

variable {before block after left right middle : List Token} {token : Token}

theorem whole (block : List Token) : IsBlock [] block [] :=
  ⟨nofun, nofun⟩

/-- Fewer tokens in front of a block keep it together. -/
theorem of_front (isBlock : IsBlock (left ++ token :: middle) block after) :
    IsBlock middle block after := by
  refine ⟨fun outer last => isBlock.front outer ?_, isBlock.back⟩
  simp [List.getLast?_append, List.getLast?_cons, Option.mem_def.1 last]

/-- Fewer tokens behind a block keep it together. -/
theorem of_back (isBlock : IsBlock before block (middle ++ token :: right)) :
    IsBlock before block middle := by
  refine ⟨isBlock.front, fun outer first => isBlock.back outer ?_⟩
  simp [List.head?_append, Option.mem_def.1 first]

/-- A token that outranks the block may stand anywhere in front of the tokens that keep it
together. -/
theorem add_front (isBlock : IsBlock middle block after)
    (outranks : ∀ other ∈ block, token.Outranks other) :
    IsBlock (left ++ token :: middle) block after := by
  refine ⟨fun outer last other member => ?_, isBlock.back⟩
  cases final : middle.getLast? with
  | none =>
      rw [List.getLast?_eq_none_iff.1 final] at last
      have same : token = outer := by simpa using last
      exact same ▸ outranks other member
  | some inner =>
      have same : inner = outer := by
        simpa [List.getLast?_append, List.getLast?_cons, final] using last
      exact isBlock.front outer (same ▸ final) other member

/-- A token that the block does not outrank may stand anywhere behind the tokens that keep it
together. -/
theorem add_back (isBlock : IsBlock before block middle)
    (notOutranked : ∀ other ∈ block, ¬ other.Outranks token) :
    IsBlock before block (middle ++ token :: right) := by
  refine ⟨isBlock.front, fun outer first other member => ?_⟩
  cases middle with
  | nil =>
      have same : token = outer := by simpa using first
      exact same ▸ notOutranked other member
  | cons start middle => exact isBlock.back outer first other member

/-- A token in front of the block outranks the block if it outranks everything up to the block. -/
theorem outranks (isBlock : IsBlock (left ++ token :: middle) block after)
    (outranks : ∀ other ∈ middle, token.Outranks other) :
    ∀ other ∈ block, token.Outranks other := by
  intro other member
  cases last : middle.getLast? with
  | none =>
      rw [List.getLast?_eq_none_iff.1 last] at isBlock
      exact isBlock.front token (by simp) other member
  | some outer =>
      have lower := isBlock.of_front.front outer last other member
      exact (outranks outer (List.mem_of_getLast? last)).trans lower

/-- No token of the block outranks a token behind it that is not outranked on the way. -/
theorem notOutranked (isBlock : IsBlock before block (middle ++ token :: right))
    (notOutranked : ∀ other ∈ middle, ¬ other.Outranks token) :
    ∀ other ∈ block, ¬ other.Outranks token := by
  intro other member
  cases middle with
  | nil => exact isBlock.back token rfl other member
  | cons outer middle =>
      intro above
      have lower := isBlock.back outer rfl other member
      exact lower (above.of_not (notOutranked outer List.mem_cons_self))

/-- The root of a row is in a block only if the block is the whole row. -/
theorem root_cases (isBlock : IsBlock before block after)
    (same : left ++ token :: right = before ++ block ++ after)
    (notOutranked : ∀ other ∈ left, ¬ other.Outranks token)
    (outranks : ∀ other ∈ right, token.Outranks other) :
    before = [] ∧ after = [] ∨
      (∃ middle, before = left ++ token :: middle ∧ right = middle ++ block ++ after) ∨
      ∃ middle, after = middle ++ token :: right ∧ left = before ++ block ++ middle := by
  rw [List.append_assoc] at same
  rcases append_eq_append_cons_iff.1 same.symm with ⟨middle, inFront, rest⟩ | ⟨start, rfl, rest⟩
  · exact .inr (.inl ⟨middle, inFront, by rw [rest, List.append_assoc]⟩)
  rcases append_eq_append_cons_iff.1 rest with ⟨stop, rfl, rfl⟩ | ⟨middle, rfl, behind⟩
  · -- A token next to the block would have to stand below the root.
    left
    have member : token ∈ start ++ token :: stop := by simp
    constructor
    · rw [← List.getLast?_eq_none_iff, Option.eq_none_iff_forall_ne_some]
      intro outer last
      exact notOutranked outer (List.mem_append_left _ (List.mem_of_getLast? last))
        (isBlock.front outer last token member)
    · rw [← List.head?_eq_none_iff, Option.eq_none_iff_forall_ne_some]
      intro outer first
      exact isBlock.back outer first token member
        (outranks outer (List.mem_append_right _ (List.mem_of_head? first)))
  · exact .inr (.inr ⟨middle, behind, by rw [List.append_assoc]⟩)

end IsBlock

namespace Tree

theorem tokens_erased (tree : Tree) : tree.erased.tokens = tree.tokens.map Token.erased := by
  induction tree with
  | leaf operand => rfl
  | node token left right leftStep rightStep =>
      rw [erased_node, tokens, tokens, leftStep, rightStep, List.map_append, List.map_cons]

/-- Trees that differ in erased parts only have the same number of tokens. -/
theorem length_tokens_of_erased {one other : Tree} (same : one.erased = other.erased) :
    one.tokens.length = other.tokens.length := by
  have tokens := congrArg (fun tree => tree.tokens.length) same
  simpa only [tokens_erased, List.length_map] using tokens

variable {block other : List Token}

/-- Another block of the same tree in the place of a block keeps the tree of the row. -/
theorem Splits.exists_of_isBlock {row : List Token} {operands : Text} {tree : Tree}
    (splits : Splits row operands tree)
    (sameTree : ∀ {operands : Text} {tree : Tree}, Splits block operands tree →
      ∃ changed, Splits other operands changed ∧ changed.erased = tree.erased)
    {before after : List Token} (same : row = before ++ block ++ after)
    (isBlock : IsBlock before block after) (otherIsBlock : IsBlock before other after) :
    ∃ changed, Splits (before ++ other ++ after) operands changed ∧
      changed.erased = tree.erased := by
  induction splits generalizing before after with
  | leaf operand =>
      obtain ⟨outside, rfl⟩ := List.append_eq_nil_iff.1 same.symm
      obtain ⟨rfl, rfl⟩ := List.append_eq_nil_iff.1 outside
      simpa using sameTree (.leaf operand)
  | @node left right token leftOperands rightOperands leftTree rightTree notOutranked outranks
      leftSplits rightSplits leftStep rightStep =>
      rcases isBlock.root_cases same notOutranked outranks with
        ⟨rfl, rfl⟩ | ⟨middle, rfl, rfl⟩ | ⟨middle, rfl, rfl⟩
      · rw [List.nil_append, List.append_nil] at same ⊢
        exact sameTree (same ▸ .node notOutranked outranks leftSplits rightSplits)
      · obtain ⟨changed, changedSplits, changedSame⟩ :=
          rightStep rfl isBlock.of_front otherIsBlock.of_front
        simp only [List.mem_append, or_imp, forall_and] at outranks
        have changedOutranks : ∀ lower ∈ middle ++ other ++ after, token.Outranks lower := by
          simp only [List.mem_append, or_imp, forall_and]
          exact ⟨⟨outranks.1.1, otherIsBlock.outranks outranks.1.1⟩, outranks.2⟩
        refine ⟨.node token leftTree changed, ?_, by rw [erased_node, erased_node, changedSame]⟩
        simpa using Splits.node notOutranked changedOutranks leftSplits changedSplits
      · obtain ⟨changed, changedSplits, changedSame⟩ :=
          leftStep rfl isBlock.of_back otherIsBlock.of_back
        simp only [List.mem_append, or_imp, forall_and] at notOutranked
        have changedNot : ∀ lower ∈ before ++ other ++ middle, ¬ lower.Outranks token := by
          simp only [List.mem_append, or_imp, forall_and]
          exact ⟨⟨notOutranked.1.1, otherIsBlock.notOutranked notOutranked.2⟩, notOutranked.2⟩
        refine ⟨.node token changed rightTree, ?_, by rw [erased_node, erased_node, changedSame]⟩
        simpa using Splits.node changedNot outranks changedSplits rightSplits

/-- What the tree of a row is below a root at a known place of the row. -/
structure SplitsAt (left : List Token) (token : Token) (right : List Token)
    (leftTree rightTree : Tree) : Prop where
  notOutranked : ∀ other ∈ left, ¬ other.Outranks token
  outranks : ∀ other ∈ right, token.Outranks other
  leftSplits : ∃ operands changed, Splits left operands changed ∧ changed.erased = leftTree.erased
  rightSplits : ∃ operands changed, Splits right operands changed ∧ changed.erased = rightTree.erased

/-- A row splits where every row with the same tree splits. -/
theorem Splits.splitsAt {left right : List Token} {token root : Token} {operands : Text}
    {tree leftTree rightTree : Tree} (splits : Splits (left ++ token :: right) operands tree)
    (same : tree.erased = (Tree.node root leftTree rightTree).erased)
    (length : left.length = leftTree.tokens.length) :
    SplitsAt left token right leftTree rightTree := by
  generalize row : left ++ token :: right = tokens at splits
  cases splits with
  | leaf operand => cases same
  | @node before after top _ _ leftPart rightPart notOutranked outranks leftSplits rightSplits =>
      rw [erased_node, erased_node] at same
      obtain ⟨-, leftSame, rightSame⟩ := Tree.node.inj same
      have shorter : left.length = before.length := by
        rw [length, ← length_tokens_of_erased leftSame, leftSplits.tokens_eq]
      obtain ⟨rfl, rest⟩ := List.append_inj row shorter
      obtain ⟨rfl, rfl⟩ := List.cons.inj rest
      exact ⟨notOutranked, outranks, ⟨_, _, leftSplits, leftSame⟩, ⟨_, _, rightSplits, rightSame⟩⟩

/-- If another block in the place of a block keeps the tree of the row, the tokens next to the place
keep the other block together. -/
theorem Splits.isBlock_of_erased_eq {row : List Token} {operands : Text} {tree : Tree}
    (splits : Splits row operands tree) {before after : List Token}
    (same : row = before ++ block ++ after) (isBlock : IsBlock before block after)
    {changedOperands : Text} {changed : Tree}
    (changedSplits : Splits (before ++ other ++ after) changedOperands changed)
    (sameTree : changed.erased = tree.erased) : IsBlock before other after := by
  induction splits generalizing before after changedOperands changed with
  | leaf operand =>
      obtain ⟨outside, rfl⟩ := List.append_eq_nil_iff.1 same.symm
      obtain ⟨rfl, rfl⟩ := List.append_eq_nil_iff.1 outside
      exact .whole other
  | @node left right token leftOperands rightOperands leftTree rightTree notOutranked outranks
      leftSplits rightSplits leftStep rightStep =>
      rcases isBlock.root_cases same notOutranked outranks with
        ⟨rfl, rfl⟩ | ⟨middle, rfl, rfl⟩ | ⟨middle, rfl, rfl⟩
      · exact .whole other
      · have row : left ++ token :: middle ++ other ++ after =
            left ++ token :: (middle ++ other ++ after) := by simp
        have length : left.length = leftTree.tokens.length := by rw [leftSplits.tokens_eq]
        have parts := (row ▸ changedSplits).splitsAt sameTree length
        obtain ⟨_, part, partSplits, partSame⟩ := parts.rightSplits
        exact (rightStep rfl isBlock.of_front partSplits partSame).add_front fun lower member =>
          parts.outranks lower (by simp [member])
      · have row : before ++ other ++ (middle ++ token :: right) =
            before ++ other ++ middle ++ token :: right := by simp
        have length : (before ++ other ++ middle).length = leftTree.tokens.length := by
          have tokens := length_tokens_of_erased sameTree
          simp only [changedSplits.tokens_eq, Tree.tokens, leftSplits.tokens_eq,
            rightSplits.tokens_eq, List.length_append, List.length_cons] at tokens ⊢
          omega
        have parts := (row ▸ changedSplits).splitsAt sameTree length
        obtain ⟨_, part, partSplits, partSame⟩ := parts.leftSplits
        exact (leftStep rfl isBlock.of_back partSplits partSame).add_back fun lower member =>
          parts.notOutranked lower (by simp [member])

end Tree

end PolishNotation
