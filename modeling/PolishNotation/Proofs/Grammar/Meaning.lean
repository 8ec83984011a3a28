import PolishNotation.Proofs.Conversion
import PolishNotation.Proofs.Term.Stack

namespace PolishNotation

namespace Grammar

/-- A factor in front of a product is the first factor of a longer product. -/
theorem Layered.exists_product {operator : Operator} {first : Text} {left : Term}
    (tight : operator = .multiply ∨ operator = .divide) (factor : Layered .factor first left) :
    ∀ {rest : Text} {right : Term}, Layered .product rest right →
      ∃ term, Layered .product (first ++ operator.symbol :: rest) term
  | _, _, .ofFactor last => ⟨_, .product tight (.ofFactor factor) last⟩
  | _, _, .product otherTight leftProduct last => by
      obtain ⟨term, longer⟩ := exists_product tight factor leftProduct
      rw [← List.cons_append, ← List.append_assoc]
      exact ⟨_, .product otherTight longer last⟩

/-- A factor in front of a sum belongs to its first product or is a product of its own. -/
theorem Layered.exists_sum {first : Text} {left : Term} (operator : Operator)
    (factor : Layered .factor first left) :
    ∀ {rest : Text} {right : Term}, Layered .sum rest right →
      ∃ term, Layered .sum (first ++ operator.symbol :: rest) term
  | _, _, .ofProduct last => by
      rcases operator.tight_or_loose with tight | loose
      · obtain ⟨term, longer⟩ := exists_product tight factor last
        exact ⟨term, .ofProduct longer⟩
      · exact ⟨_, .sum loose (.ofProduct (.ofFactor factor)) last⟩
  | _, _, .sum otherLoose leftSum last => by
      obtain ⟨term, longer⟩ := exists_sum operator factor leftSum
      rw [← List.cons_append, ← List.append_assoc]
      exact ⟨_, .sum otherLoose longer last⟩

/-- A whole expression is a sum and a member is a factor. -/
def FlatKind.layer : FlatKind → Layer
  | expression => .sum
  | member => .factor

/-- The layers give every flat text a meaning. -/
theorem Flat.exists_layered {kind : FlatKind} {text : Text} (flat : Flat kind text) :
    ∃ term, Layered kind.layer text term := by
  induction flat with
  | operand letter => exact ⟨_, .operand letter⟩
  | group inner ih =>
      obtain ⟨term, sum⟩ := ih
      exact ⟨term, .group sum⟩
  | single member ih =>
      obtain ⟨term, factor⟩ := ih
      exact ⟨term, .ofProduct (.ofFactor factor)⟩
  | join operator member expression memberStep expressionStep =>
      obtain ⟨left, factor⟩ := memberStep
      obtain ⟨right, sum⟩ := expressionStep
      exact factor.exists_sum operator sum

theorem Layered.lettered {layer : Layer} {text : Text} {term : Term}
    (layered : Layered layer text term) : Lettered term := by
  induction layered with
  | operand letter => exact letter
  | group inner ih => exact ih
  | ofFactor factor ih => exact ih
  | ofProduct product ih => exact ih
  | product tight left right leftStep rightStep => exact ⟨leftStep, rightStep⟩
  | sum loose left right leftStep rightStep => exact ⟨leftStep, rightStep⟩

end Grammar

/-- Different terms have different trees and different texts. -/
theorem Term.tree_eq_iff {first second : Term} (firstLetters : Grammar.Lettered first)
    (secondLetters : Grammar.Lettered second) :
    first.tree = second.tree ↔ first.postorder = second.postorder := by
  constructor
  · intro same
    rw [← first.postorder_tree, same, second.postorder_tree]
  · intro same
    rw [Term.postorder_injective firstLetters secondLetters same]

/-- A text is converted exactly if it can be read. -/
theorem exists_toPostfix_iff {text : Text} :
    (∃ output, toPostfix text = .ok output) ↔ Grammar.Flat .expression text.compact := by
  rw [← Expression.exists_ofText_iff]
  constructor
  · rintro ⟨output, converted⟩
    rw [toPostfix, Conversion.ofText_eq] at converted
    cases read : Expression.ofText text with
    | error fault =>
        rw [read] at converted
        cases converted
    | ok expression => exact ⟨expression, rfl⟩
  · rintro ⟨expression, read⟩
    obtain ⟨conversion, converted⟩ := Conversion.exists_ofText read
    exact ⟨_, Conversion.toPostfix_of_ofText converted⟩

theorem toPostfix_of_means {text : Text} {term : Term} (means : Grammar.Means text term) :
    toPostfix text = .ok term.postorder := by
  obtain ⟨conversion, converted, -, output⟩ := Conversion.exists_ofText_of_means means
  rw [Conversion.toPostfix_of_ofText converted, output]

/-- A text is converted to the text of the term that it means. -/
theorem toPostfix_eq_ok_iff {text output : Text} :
    toPostfix text = .ok output ↔ ∃ term, Grammar.Means text term ∧ term.postorder = output := by
  constructor
  · intro converted
    obtain ⟨term, means⟩ := (exists_toPostfix_iff.1 ⟨output, converted⟩).exists_layered
    have written : toPostfix text = .ok term.postorder := toPostfix_of_means means
    rw [converted] at written
    exact ⟨term, means, (Except.ok.inj written).symm⟩
  · rintro ⟨term, means, rfl⟩
    exact toPostfix_of_means means

/-- A text that is converted to the text of a term means this term. -/
theorem means_of_toPostfix {text : Text} {term : Term} (letters : Grammar.Lettered term)
    (converted : toPostfix text = .ok term.postorder) : Grammar.Means text term := by
  obtain ⟨other, means, same⟩ := toPostfix_eq_ok_iff.1 converted
  rwa [← Term.postorder_injective (Grammar.Layered.lettered means) letters same]

end PolishNotation
