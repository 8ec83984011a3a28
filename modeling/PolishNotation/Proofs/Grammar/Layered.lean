import PolishNotation.Grammar
import PolishNotation.Proofs.Grammar.Tokens
import PolishNotation.Proofs.Tree.Erased

namespace PolishNotation

/-- Every operator joins factors to a product or products to a sum. -/
theorem Operator.tight_or_loose (operator : Operator) :
    (operator = .multiply ∨ operator = .divide) ∨ (operator = .add ∨ operator = .subtract) := by
  cases operator <;> decide

/-- The token lies deeper than the text around it or binds at least this tight. -/
def Token.IsWithin (depth bound : Int) (token : Token) : Prop :=
  depth < token.depth ∨ token.depth = depth ∧ token.precedence ≤ bound

theorem Token.IsWithin.mono {depth bound looser : Int} {token : Token}
    (within : token.IsWithin depth bound) (le : bound ≤ looser) : token.IsWithin depth looser := by
  unfold IsWithin at *
  omega

/-- The tokens of an inner text lie deeper than the text around it. -/
theorem Token.IsWithin.of_deeper {depth bound other : Int} {token : Token}
    (within : token.IsWithin (depth + 1) bound) : token.IsWithin depth other := by
  unfold IsWithin at *
  omega

namespace Grammar

/-- The operators outside all parentheses have at most this precedence. -/
def Layer.bound : Layer → Int
  | sum => 2
  | product => 1
  | factor => 0

theorem netDepth_join (left right : Text) (operator : Operator) :
    netDepth (left ++ operator.symbol :: right) = netDepth left + netDepth right := by
  have split := netDepth_append [operator.symbol] right
  rw [List.singleton_append, netDepth_symbol, Int.zero_add] at split
  rw [netDepth_append, split]

theorem netDepth_group (text : Text) :
    netDepth (Expression.opening :: text ++ [Expression.closing]) = netDepth text := by
  have split := netDepth_append [Expression.opening] (text ++ [Expression.closing])
  rw [List.cons_append, ← List.singleton_append, split, netDepth_append, netDepth_opening,
    netDepth_closing]
  omega

/-- The parentheses of a derivation match. -/
theorem Layered.netDepth_eq_zero {layer : Layer} {text : Text} {term : Term}
    (layered : Layered layer text term) : netDepth text = 0 := by
  induction layered with
  | operand letter => exact netDepth_of_isLetter letter
  | group inner ih => rw [netDepth_group, ih]
  | ofFactor factor ih => exact ih
  | ofProduct product ih => exact ih
  | product tight left right leftStep rightStep =>
      rw [netDepth_join, leftStep, rightStep, Int.add_zero]
  | sum loose left right leftStep rightStep =>
      rw [netDepth_join, leftStep, rightStep, Int.add_zero]

theorem levels_letter {character : Char} (letter : isLetter character = true) (depth : Int) :
    levels depth [character] = [] := by
  simp [levels, tokenOf?, ofSymbol?_of_isLetter letter]

/-- The parentheses put the tokens of a group one level deeper. -/
theorem levels_group (depth : Int) (text : Text) :
    levels depth (Expression.opening :: text ++ [Expression.closing]) =
      levels (depth + 1) text := by
  rw [List.cons_append, levels, levels_append, netDepth_opening]
  simp [levels, tokenOf?, Expression.opening_isPlain, Expression.closing_isPlain]

/-- The operator behind a text with matching parentheses stands at the depth of the text. -/
theorem levels_join (depth : Int) {left : Text} (balanced : netDepth left = 0)
    (operator : Operator) (right : Text) :
    levels depth (left ++ operator.symbol :: right) =
      levels depth left ++ .ofOperator operator depth Token.unknownPosition ::
        levels depth right := by
  rw [levels_append, balanced, Int.add_zero, levels, tokenOf?, Operator.ofSymbol?_symbol,
    netDepth_symbol, Int.add_zero]
  rfl

theorem isWithin_of_mem_join {depth bound : Int} {left right : List Token} {operator : Operator}
    (tight : operator.precedence ≤ bound)
    (leftWithin : ∀ token ∈ left, token.IsWithin depth bound)
    (rightWithin : ∀ token ∈ right, token.IsWithin depth bound) :
    ∀ token ∈ left ++ Token.ofOperator operator depth Token.unknownPosition :: right,
      token.IsWithin depth bound := by
  intro token member
  rcases List.mem_append.1 member with before | rest
  · exact leftWithin token before
  rcases List.mem_cons.1 rest with same | after
  · rw [same]
    exact .inr ⟨rfl, tight⟩
  · exact rightWithin token after

/-- A layer bounds the tokens of its texts. -/
theorem Layered.isWithin {layer : Layer} {text : Text} {term : Term}
    (layered : Layered layer text term) (depth : Int) :
    ∀ token ∈ levels depth text, token.IsWithin depth layer.bound := by
  induction layered generalizing depth with
  | operand letter => simp [levels_letter letter]
  | group inner ih =>
      rw [levels_group]
      intro token member
      exact (ih (depth + 1) token member).of_deeper
  | ofFactor factor ih =>
      intro token member
      exact (ih depth token member).mono (by decide)
  | ofProduct product ih =>
      intro token member
      exact (ih depth token member).mono (by decide)
  | product tight left right leftStep rightStep =>
      rw [levels_join depth left.netDepth_eq_zero]
      apply isWithin_of_mem_join ?_ (leftStep depth)
      · intro token member
        exact (rightStep depth token member).mono (by decide)
      · rcases tight with rfl | rfl <;> decide
  | sum loose left right leftStep rightStep =>
      rw [levels_join depth left.netDepth_eq_zero]
      apply isWithin_of_mem_join ?_ (leftStep depth)
      · intro token member
        exact (rightStep depth token member).mono (by decide)
      · rcases loose with rfl | rfl <;> decide

end Grammar

/-- An operator splits the row if no token before it binds looser and every token after it binds
tighter or lies deeper. -/
theorem Tree.Splits.join {before after : List Token} {leftOperands rightOperands : Text}
    {left right : Tree} {operator : Operator} {depth position : Int}
    (leftWithin : ∀ token ∈ before, token.IsWithin depth operator.precedence)
    (rightWithin : ∀ token ∈ after, token.IsWithin depth (operator.precedence - 1))
    (leftSplits : Splits before leftOperands left)
    (rightSplits : Splits after rightOperands right) :
    Splits (before ++ .ofOperator operator depth position :: after)
      (leftOperands ++ rightOperands)
      (.node (.ofOperator operator depth position) left right) := by
  apply Splits.node ?_ ?_ leftSplits rightSplits
  · intro other member
    have within := leftWithin other member
    simp only [Token.IsWithin, Token.Outranks, Token.TighterThan, Token.ofOperator] at *
    omega
  · intro other member
    have within := rightWithin other member
    simp only [Token.IsWithin, Token.Outranks, Token.TighterThan, Token.ofOperator] at *
    omega

namespace Grammar

theorem filter_isLetter_group (text : Text) :
    (Expression.opening :: text ++ [Expression.closing]).filter isLetter =
      text.filter isLetter := by
  simp [Expression.opening_isPlain, Expression.closing_isPlain]

theorem filter_isLetter_join (left right : Text) (operator : Operator) :
    (left ++ operator.symbol :: right).filter isLetter =
      left.filter isLetter ++ right.filter isLetter := by
  simp [operator.symbol_isPlain]

/-- Two parts that bind tight enough split at the operator between them. -/
theorem Layered.exists_splits_join {leftLayer rightLayer : Layer} {leftText rightText : Text}
    {left right : Term} {operator : Operator} {depth : Int}
    (leftBound : leftLayer.bound ≤ operator.precedence)
    (rightBound : rightLayer.bound ≤ operator.precedence - 1)
    (leftLayered : Layered leftLayer leftText left)
    (rightLayered : Layered rightLayer rightText right)
    (leftSplits : ∃ tree, Tree.Splits (levels depth leftText) (leftText.filter isLetter) tree ∧
      tree.erased = left.tree)
    (rightSplits : ∃ tree, Tree.Splits (levels depth rightText) (rightText.filter isLetter) tree ∧
      tree.erased = right.tree) :
    ∃ tree, Tree.Splits (levels depth (leftText ++ operator.symbol :: rightText))
        ((leftText ++ operator.symbol :: rightText).filter isLetter) tree ∧
      tree.erased = (Term.binary operator left right).tree := by
  obtain ⟨leftTree, leftSplits, leftSame⟩ := leftSplits
  obtain ⟨rightTree, rightSplits, rightSame⟩ := rightSplits
  have leftWithin : ∀ token ∈ levels depth leftText,
      token.IsWithin depth operator.precedence :=
    fun token member => (leftLayered.isWithin depth token member).mono leftBound
  have rightWithin : ∀ token ∈ levels depth rightText,
      token.IsWithin depth (operator.precedence - 1) :=
    fun token member => (rightLayered.isWithin depth token member).mono rightBound
  rw [levels_join depth leftLayered.netDepth_eq_zero, filter_isLetter_join]
  refine ⟨_, .join leftWithin rightWithin leftSplits rightSplits, ?_⟩
  rw [Tree.erased_node, leftSame, rightSame]
  rfl

/-- The row of a derivation splits to the tree of its term. -/
theorem Layered.exists_splits {layer : Layer} {text : Text} {term : Term}
    (layered : Layered layer text term) (depth : Int) :
    ∃ tree, Tree.Splits (levels depth text) (text.filter isLetter) tree ∧
      tree.erased = term.tree := by
  induction layered generalizing depth with
  | @operand character letter =>
      refine ⟨.leaf [character], ?_, rfl⟩
      rw [levels_letter letter, List.filter_singleton, letter]
      exact .leaf character
  | @group text term inner ih =>
      rw [levels_group, filter_isLetter_group]
      exact ih (depth + 1)
  | ofFactor factor ih => exact ih depth
  | ofProduct product ih => exact ih depth
  | product tight left right leftStep rightStep =>
      apply exists_splits_join ?_ ?_ left right (leftStep depth) (rightStep depth)
      · rcases tight with rfl | rfl <;> decide
      · rcases tight with rfl | rfl <;> decide
  | sum loose left right leftStep rightStep =>
      apply exists_splits_join ?_ ?_ left right (leftStep depth) (rightStep depth)
      · rcases loose with rfl | rfl <;> decide
      · rcases loose with rfl | rfl <;> decide

/-- A flat expression goes on after an operator with another one. -/
theorem Flat.append {first second : Text} (operator : Operator)
    (flat : Flat .expression first) (rest : Flat .expression second) :
    Flat .expression (first ++ operator.symbol :: second) := by
  generalize same : FlatKind.expression = kind at flat
  induction flat with
  | operand letter => cases same
  | group inner ih => cases same
  | single member ih => exact .join operator member rest
  | join other member expression memberStep expressionStep =>
      rw [List.append_assoc, List.cons_append]
      exact .join other member (expressionStep rfl)

/-- The grammar without layers accepts every derivation. -/
theorem Layered.flat {layer : Layer} {text : Text} {term : Term}
    (layered : Layered layer text term) :
    Flat .expression text ∧ (layer = .factor → Flat .member text) := by
  induction layered with
  | operand letter => exact ⟨.single (.operand letter), fun _ => .operand letter⟩
  | group inner ih => exact ⟨.single (.group ih.1), fun _ => .group ih.1⟩
  | ofFactor factor ih => exact ⟨ih.1, nofun⟩
  | ofProduct product ih => exact ⟨ih.1, nofun⟩
  | product tight left right leftStep rightStep =>
      exact ⟨leftStep.1.append _ rightStep.1, nofun⟩
  | sum loose left right leftStep rightStep =>
      exact ⟨leftStep.1.append _ rightStep.1, nofun⟩

/-- The levels of a text that means a term split to the tree of the term. -/
theorem Means.exists_splits_levels {text : Text} {term : Term} (means : Means text term) :
    ∃ tree, Tree.Splits (levels 0 text) (text.filter isLetter) tree ∧ tree.erased = term.tree := by
  have splits := Layered.exists_splits means 0
  rwa [levels_compact, Text.filter_isLetter_compact] at splits

/-- The tokens of a text that means a term split to the tree of the term. -/
theorem Means.exists_splits {text : Text} {term : Term} (means : Means text term) :
    ∃ tree, Tree.Splits (tokensOf text) (text.filter isLetter) tree ∧
      tree.erased = term.tree := by
  obtain ⟨tree, splits, same⟩ := means.exists_splits_levels
  rw [← map_unplaced_tokensOf] at splits
  obtain ⟨placed, placedSplits, placedSame⟩ := Tree.exists_splits_of_unplaced splits
  exact ⟨placed, placedSplits, placedSame.trans same⟩

end Grammar

end PolishNotation
