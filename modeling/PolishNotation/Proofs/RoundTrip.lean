import PolishNotation.Proofs.Conversion
import PolishNotation.Proofs.Term.Stack

namespace PolishNotation

namespace Grammar

variable {layer lower : Layer} {text : Text} {term : Term}

/-- A text of a tighter layer belongs to every looser one. -/
theorem Layered.mono (layered : Layered lower text term) (le : lower.bound ≤ layer.bound) :
    Layered layer text term := by
  cases lower with
  | sum =>
      cases layer with
      | sum => exact layered
      | product => exact absurd le (by decide)
      | factor => exact absurd le (by decide)
  | product =>
      cases layer with
      | sum => exact .ofProduct layered
      | product => exact layered
      | factor => exact absurd le (by decide)
  | factor =>
      cases layer with
      | sum => exact .ofProduct (.ofFactor layered)
      | product => exact .ofFactor layered
      | factor => exact layered

/-- A text that means a term has no blank characters. -/
theorem Layered.compact_eq (layered : Layered layer text term) : text.compact = text := by
  induction layered with
  | operand letter => rw [Text.compact_cons (isBlank_of_isLetter letter), Text.compact_nil]
  | group inner ih =>
      rw [List.cons_append, Text.compact_cons Expression.opening_isPlain.1, Text.compact_append,
        ih, Text.compact_cons Expression.closing_isPlain.1, Text.compact_nil]
  | ofFactor factor ih => exact ih
  | ofProduct product ih => exact ih
  | @product operator leftText rightText left right tight leftProduct rightFactor leftStep
      rightStep =>
      rw [Text.compact_append, Text.compact_cons operator.symbol_isPlain.1, leftStep, rightStep]
  | @sum operator leftText rightText left right loose leftSum rightProduct leftStep rightStep =>
      rw [Text.compact_append, Text.compact_cons operator.symbol_isPlain.1, leftStep, rightStep]

/-- A part of a term fits into a layer with parentheses, or without them if it binds tight
enough. -/
theorem Layered.enclosed {needed : Bool}
    (fits : ∀ layer : Layer, term.precedence ≤ layer.bound → Layered layer term.written term)
    (loose : term.precedence ≤ Layer.sum.bound)
    (tight : needed = false → term.precedence ≤ layer.bound) :
    Layered layer (Text.enclosed needed term.written) term := by
  cases needed with
  | true =>
      have group : Layered .factor (Text.enclosed true term.written) term :=
        .group (fits .sum loose)
      exact group.mono (by cases layer <;> decide)
  | false => exact fits layer (tight rfl)

end Grammar

namespace Term

theorem precedence_le (term : Term) : term.precedence ≤ Grammar.Layer.sum.bound := by
  cases term with
  | operand character =>
      show (0 : Int) ≤ 2
      decide
  | binary operator left right =>
      show operator.precedence ≤ 2
      cases operator <;> decide

/-- This term is written without parentheses in every layer that is loose enough for it. -/
def FitsWritten (term : Term) : Prop :=
  ∀ layer : Grammar.Layer, term.precedence ≤ layer.bound →
    Grammar.Layered layer term.written term

/-- The left part of an operator fits into the layer of the operator. -/
theorem layered_left {operator : Operator} {left : Term} {layer : Grammar.Layer}
    (fits : left.FitsWritten) (bound : operator.precedence ≤ layer.bound) :
    Grammar.Layered layer (Text.enclosed (operator.precedence < left.precedence) left.written) left := by
  apply Grammar.Layered.enclosed fits left.precedence_le
  intro needless
  have tight := of_decide_eq_false needless
  omega

/-- The right part of an operator fits into the next tighter layer. -/
theorem layered_right {operator : Operator} {right : Term} {layer : Grammar.Layer}
    (fits : right.FitsWritten) (bound : operator.precedence ≤ layer.bound + 1) :
    Grammar.Layered layer (Text.enclosed (operator.precedence ≤ right.precedence) right.written)
      right := by
  apply Grammar.Layered.enclosed fits right.precedence_le
  intro needless
  have tight := of_decide_eq_false needless
  omega

theorem fitsWritten_binary {operator : Operator} {left right : Term}
    (leftFits : left.FitsWritten) (rightFits : right.FitsWritten) :
    (binary operator left right).FitsWritten := by
  intro layer fits
  cases operator.tight_or_loose with
  | inl tight =>
      have same : operator.precedence = 1 := by
        rcases tight with rfl | rfl <;> rfl
      have product := Grammar.Layered.product tight
        (layered_left leftFits (Int.le_of_eq same)) (layered_right rightFits (Int.le_of_eq same))
      exact product.mono (Int.le_trans (Int.le_of_eq same.symm) fits)
  | inr loose =>
      have same : operator.precedence = 2 := by
        rcases loose with rfl | rfl <;> rfl
      have sum := Grammar.Layered.sum loose
        (layered_left leftFits (Int.le_of_eq same)) (layered_right rightFits (Int.le_of_eq same))
      exact sum.mono (Int.le_trans (Int.le_of_eq same.symm) fits)

/-- A written term belongs to every layer that is loose enough for it. -/
theorem fitsWritten {term : Term} (letters : Grammar.Lettered term) : term.FitsWritten := by
  induction term with
  | operand character =>
      intro layer fits
      have factor : Grammar.Layered .factor [character] (.operand character) := .operand letters
      exact factor.mono fits
  | binary operator left right leftStep rightStep =>
      exact fitsWritten_binary (leftStep letters.1) (rightStep letters.2)

/-- A written term means the term. -/
theorem means_written {term : Term} (letters : Grammar.Lettered term) :
    Grammar.Means term.written term := by
  have layered := fitsWritten letters .sum term.precedence_le
  rw [Grammar.Means, layered.compact_eq]
  exact layered

end Term

/-- A text that is converted to operators between their operands is converted back to itself without
its blank characters. -/
theorem toPostfix_of_toInfix {source text : Text} (converted : toInfix source = .ok text) :
    toPostfix text = .ok source.compact := by
  cases read : Term.ofPostfix source with
  | error fault =>
      rw [toInfix_eq, read] at converted
      cases converted
  | ok term =>
      rw [toInfix_eq, read] at converted
      cases converted
      obtain ⟨letters, spells⟩ := Term.postorder_of_ofPostfix read
      obtain ⟨conversion, back, -, output⟩ :=
        Conversion.exists_ofText_of_means (Term.means_written letters)
      rw [Conversion.toPostfix_of_ofText back, output, spells]

/-- Blank characters do not come back, and equally tight operators on the right keep their
parentheses. -/
theorem toPostfix_of_toInfix_nested :
    toInfix "A BC -- D/".toList = .ok "(A-(B-C))/D".toList ∧
      toPostfix "(A-(B-C))/D".toList = .ok "ABC--D/".toList := by
  have converted : toInfix "A BC -- D/".toList = .ok "(A-(B-C))/D".toList := by decide
  exact ⟨converted, toPostfix_of_toInfix converted⟩

end PolishNotation
