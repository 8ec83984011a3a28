import PolishNotation.Conversion
import PolishNotation.Proofs.Construction
import PolishNotation.Proofs.Grammar.Flat
import PolishNotation.Proofs.Grammar.Layered

namespace PolishNotation

namespace Conversion

theorem ofText_of_splits {text : Text} {expression : Expression} {tree : Tree}
    (read : Expression.ofText text = .ok expression)
    (splits : Tree.Splits expression.tokens expression.operands tree) :
    ofText text = .ok (ofTree text expression tree) := by
  have built : expression.tree = .ok tree := Expression.tree_of_splits splits
  rw [ofText_eq, read]
  show expression.tree.map (ofTree text expression) = .ok (ofTree text expression tree)
  rw [built]
  rfl

theorem toPostfix_of_ofText {text : Text} {conversion : Conversion}
    (converted : ofText text = .ok conversion) : toPostfix text = .ok conversion.output := by
  rw [toPostfix, converted]
  rfl

/-- The conversion of a text that is read keeps the text, the expression, and its tree. -/
theorem exists_tree_and_ofText {text : Text} {expression : Expression}
    (read : Expression.ofText text = .ok expression) :
    ∃ tree, expression.tree = .ok tree ∧ ofText text = .ok (ofTree text expression tree) := by
  obtain ⟨tree, splits⟩ := (Tree.exists_splits_iff expression.tokens expression.operands).2
    (Expression.length_operands_of_ofText read)
  exact ⟨tree, Expression.tree_of_splits splits, ofText_of_splits read splits⟩

/-- Every text that can be read can be converted. -/
theorem exists_ofText {text : Text} {expression : Expression}
    (read : Expression.ofText text = .ok expression) :
    ∃ conversion, ofText text = .ok conversion := by
  obtain ⟨tree, -, converted⟩ := exists_tree_and_ofText read
  exact ⟨_, converted⟩

/-- The tree of a text that means a term is the tree of the term. -/
theorem exists_ofText_of_means {text : Text} {term : Term} (means : Grammar.Means text term) :
    ∃ conversion, ofText text = .ok conversion ∧ conversion.tree.erased = term.tree ∧
      conversion.output = term.postorder := by
  obtain ⟨expression, read⟩ := Expression.exists_ofText_iff.2 (Grammar.Layered.flat means).1
  obtain ⟨tree, splits, same⟩ := means.exists_splits
  have contents := Expression.eq_of_ofText read
  subst contents
  refine ⟨_, ofText_of_splits read splits, same, ?_⟩
  rw [← term.postorder_tree, ← same, Tree.postorder_erased]
  rfl

/-- A text that means a term is converted to the tree and the postorder of the term, and no text
that can be read fails later. -/
theorem ofText_of_means (text : Text) :
    (∀ term, Grammar.Means text term →
        ∃ conversion, ofText text = .ok conversion ∧ conversion.tree.erased = term.tree ∧
          toPostfix text = .ok term.postorder) ∧
      ∀ expression, Expression.ofText text = .ok expression →
        ∃ conversion, ofText text = .ok conversion ∧ toPostfix text = .ok conversion.output := by
  constructor
  · intro term means
    obtain ⟨conversion, converted, same, output⟩ := exists_ofText_of_means means
    exact ⟨conversion, converted, same, output ▸ toPostfix_of_ofText converted⟩
  · intro expression read
    obtain ⟨conversion, converted⟩ := exists_ofText read
    exact ⟨conversion, converted, toPostfix_of_ofText converted⟩

/-- Parentheses, needed or not, leave nothing behind but the shape of the tree. -/
theorem ofText_of_means_grouped :
    Grammar.Means "((A)+ B) *C".toList
        (.binary .multiply (.binary .add (.operand 'A') (.operand 'B')) (.operand 'C')) ∧
      ∃ conversion, ofText "((A)+ B) *C".toList = .ok conversion ∧
        conversion.tree.erased = Term.tree
          (.binary .multiply (.binary .add (.operand 'A') (.operand 'B')) (.operand 'C')) ∧
        toPostfix "((A)+ B) *C".toList = .ok "AB+C*".toList := by
  have grouped : Grammar.Layered .factor (Expression.opening :: ['A'] ++ [Expression.closing])
      (.operand 'A') := .group (.ofProduct (.ofFactor (.operand rfl)))
  have sum := Grammar.Layered.sum (.inl rfl) (.ofProduct (.ofFactor grouped))
    (.ofFactor (.operand (show isLetter 'B' = true from rfl)))
  have product := Grammar.Layered.product (.inl rfl) (.ofFactor (.group sum))
    (.operand (show isLetter 'C' = true from rfl))
  have means : Grammar.Means "((A)+ B) *C".toList _ := .ofProduct product
  exact ⟨means, (ofText_of_means _).1 _ means⟩

end Conversion

end PolishNotation
