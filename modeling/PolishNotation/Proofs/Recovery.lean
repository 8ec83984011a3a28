import PolishNotation.Proofs.Conversion

namespace PolishNotation

namespace Tree

/-- A tree splits one row with one choice of operands only. -/
theorem Splits.row_unique {firstTokens secondTokens : List Token}
    {firstOperands secondOperands : Text} {tree : Tree}
    (one : Splits firstTokens firstOperands tree)
    (other : Splits secondTokens secondOperands tree) :
    firstTokens = secondTokens ∧ firstOperands = secondOperands := by
  have tokens : firstTokens = secondTokens := one.tokens_eq.symm.trans other.tokens_eq
  have leaves : firstOperands.map List.singleton = secondOperands.map List.singleton :=
    one.operands_eq.symm.trans other.operands_eq
  have injective : Function.Injective (List.singleton (α := Char)) :=
    fun first second same => List.singleton_inj.1 same
  exact ⟨tokens, List.map_injective_iff.2 injective leaves⟩

end Tree

namespace Expression

/-- Two trees are equal exactly if they are built from the same tokens and operands. -/
theorem eq_iff_of_tree {first second : Expression} {one other : Tree}
    (firstBuilt : first.tree = .ok one) (secondBuilt : second.tree = .ok other) :
    one = other ↔ first.tokens = second.tokens ∧ first.operands = second.operands := by
  constructor
  · intro same
    subst same
    exact (splits_of_tree firstBuilt).row_unique (splits_of_tree secondBuilt)
  · rintro ⟨tokens, operands⟩
    have secondSplits := splits_of_tree secondBuilt
    rw [← tokens, ← operands] at secondSplits
    exact (splits_of_tree firstBuilt).unique secondSplits

end Expression

namespace Conversion

/-- A tree determines the tokens and the operands that it is built from. The trees of two texts are
equal exactly if the same operands and tokens are read from both, and the conversions only if the
texts are the same. -/
theorem tree_determines_expression :
    (∀ (first second : Expression) (one other : Tree),
        first.tree = .ok one → second.tree = .ok other →
          (one = other ↔ first.tokens = second.tokens ∧ first.operands = second.operands)) ∧
      ∀ (firstText secondText : Text) (first second : Expression),
        Expression.ofText firstText = .ok first → Expression.ofText secondText = .ok second →
          ∃ one other, ofText firstText = .ok one ∧ ofText secondText = .ok other ∧
            (one.tree = other.tree ↔
              first.operands = second.operands ∧ first.tokens = second.tokens) ∧
            (one = other ↔ firstText = secondText) := by
  refine ⟨fun first second one other => Expression.eq_iff_of_tree, ?_⟩
  intro firstText secondText first second firstRead secondRead
  obtain ⟨firstTree, firstBuilt, firstConverted⟩ := exists_tree_and_ofText firstRead
  obtain ⟨secondTree, secondBuilt, secondConverted⟩ := exists_tree_and_ofText secondRead
  refine ⟨_, _, firstConverted, secondConverted, ?_, congrArg source, ?_⟩
  · rw [and_comm]
    exact Expression.eq_iff_of_tree firstBuilt secondBuilt
  · intro same
    subst same
    rw [secondConverted] at firstConverted
    exact (Except.ok.inj firstConverted).symm

/-- Parentheses around the last letter leave the tree as it is but not the conversion, and a blank
character moves a token. -/
theorem tree_determines_expression_grouped :
    (∃ one other, ofText "A+B*C".toList = .ok one ∧ ofText "A+B*(C)".toList = .ok other ∧
        one.tree = other.tree ∧ one ≠ other) ∧
      ∃ one other, ofText "A+B".toList = .ok one ∧ ofText "A +B".toList = .ok other ∧
        one.tree ≠ other.tree := by
  have plain : Expression.ofText "A+B*C".toList =
      .ok ⟨"ABC".toList, [.ofOperator .add 0 1, .ofOperator .multiply 0 3]⟩ := by rfl
  have grouped : Expression.ofText "A+B*(C)".toList =
      .ok ⟨"ABC".toList, [.ofOperator .add 0 1, .ofOperator .multiply 0 3]⟩ := by rfl
  have dense : Expression.ofText "A+B".toList = .ok ⟨"AB".toList, [.ofOperator .add 0 1]⟩ := by rfl
  have spaced : Expression.ofText "A +B".toList = .ok ⟨"AB".toList, [.ofOperator .add 0 2]⟩ := by
    rfl
  obtain ⟨one, other, oneConverted, otherConverted, sameTree, sameText⟩ :=
    tree_determines_expression.2 _ _ _ _ plain grouped
  obtain ⟨third, fourth, thirdConverted, fourthConverted, otherTree, -⟩ :=
    tree_determines_expression.2 _ _ _ _ dense spaced
  refine ⟨⟨one, other, oneConverted, otherConverted, sameTree.2 ⟨rfl, rfl⟩, ?_⟩,
    ⟨third, fourth, thirdConverted, fourthConverted, ?_⟩⟩
  · rw [Ne, sameText]
    decide
  · rw [Ne, otherTree]
    decide

end Conversion

end PolishNotation
