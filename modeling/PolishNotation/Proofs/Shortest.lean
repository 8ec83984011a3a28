import PolishNotation.Proofs.Grammar.Meaning
import PolishNotation.Proofs.Grammar.Parentheses
import PolishNotation.Proofs.RoundTrip

namespace PolishNotation

namespace Term

variable {layer lower : Grammar.Layer} {term : Term}

/-- In a place of a layer a term needs parentheses if it is looser than the layer. -/
def writtenIn (layer : Grammar.Layer) (term : Term) : Text :=
  Text.enclosed (layer.bound < term.precedence) term.written

theorem writtenIn_of_le (fits : term.precedence ≤ layer.bound) :
    term.writtenIn layer = term.written := by
  rw [writtenIn, decide_eq_false (Int.not_lt.2 fits)]
  rfl

/-- The operator determines the layers of its two sides. -/
theorem written_binary {operator : Operator} {leftLayer rightLayer : Grammar.Layer}
    (leftBound : operator.precedence = leftLayer.bound)
    (rightBound : operator.precedence = rightLayer.bound + 1) (left right : Term) :
    (binary operator left right).written =
      left.writtenIn leftLayer ++ operator.symbol :: right.writtenIn rightLayer := by
  have rightNeeds : operator.precedence ≤ right.precedence ↔
      rightLayer.bound < right.precedence := by
    rw [rightBound, Int.add_one_le_iff]
  simp only [written, writtenIn, rightNeeds, ← leftBound]

theorem balanced_written (letters : Grammar.Lettered term) : Grammar.Balanced term.written :=
  (fitsWritten letters .sum term.precedence_le).balanced

end Term

namespace Grammar

/-- Parentheses around a balanced text may be removed. -/
theorem Reduces.enclosed {text : Text} (balanced : Balanced text) {outer inner : Bool}
    (fewer : inner = true → outer = true) :
    Reduces (Text.enclosed outer text) (Text.enclosed inner text) := by
  cases outer with
  | false =>
      cases inner with
      | false => exact .refl _
      | true => cases fewer rfl
  | true =>
      cases inner with
      | false =>
          have removal := single (Removes.pair [] [] balanced)
          rwa [List.append_nil] at removal
      | true => exact .refl _

/-- A place of a looser layer needs no more parentheses. -/
theorem reduces_writtenIn {lower layer : Layer} {term : Term} (letters : Lettered term)
    (le : lower.bound ≤ layer.bound) : Reduces (term.writtenIn lower) (term.writtenIn layer) := by
  apply Reduces.enclosed (Term.balanced_written letters)
  intro needed
  have loose := of_decide_eq_true needed
  exact decide_eq_true (by omega)

/-- Two parts that reduce to what their places demand reduce to the written term. -/
theorem reduces_join {leftLayer rightLayer : Layer} {leftText rightText : Text}
    {left right : Term} {operator : Operator} (leftBound : operator.precedence = leftLayer.bound)
    (rightBound : operator.precedence = rightLayer.bound + 1)
    (leftReduces : Reduces leftText (left.writtenIn leftLayer))
    (rightReduces : Reduces rightText (right.writtenIn rightLayer)) :
    Reduces (leftText ++ operator.symbol :: rightText)
      ((Term.binary operator left right).writtenIn leftLayer) := by
  have fits : (Term.binary operator left right).precedence ≤ leftLayer.bound :=
    Int.le_of_eq leftBound
  rw [Term.writtenIn_of_le fits, Term.written_binary leftBound rightBound]
  exact leftReduces.append (by simpa using rightReduces.context [operator.symbol] [])

/-- A derivation reduces to the written term in a place of its layer. -/
theorem Layered.reduces {layer : Layer} {text : Text} {term : Term}
    (layered : Layered layer text term) : Reduces text (term.writtenIn layer) := by
  induction layered with
  | operand letter => exact .refl _
  | @group text term inner ih =>
      -- Between parentheses nothing more is needed, and the place may not even need these.
      rw [Term.writtenIn_of_le term.precedence_le] at ih
      have grouped : Reduces (Expression.opening :: text ++ [Expression.closing])
          (Text.enclosed true term.written) :=
        ih.context [Expression.opening] [Expression.closing]
      exact grouped.trans (.enclosed (Term.balanced_written inner.lettered) fun _ => rfl)
  | ofFactor factor ih => exact ih.trans (reduces_writtenIn factor.lettered (by decide))
  | ofProduct product ih => exact ih.trans (reduces_writtenIn product.lettered (by decide))
  | product tight left right leftStep rightStep =>
      apply reduces_join ?_ ?_ leftStep rightStep
      · rcases tight with rfl | rfl <;> rfl
      · rcases tight with rfl | rfl <;> rfl
  | sum loose left right leftStep rightStep =>
      apply reduces_join ?_ ?_ leftStep rightStep
      · rcases loose with rfl | rfl <;> rfl
      · rcases loose with rfl | rfl <;> rfl

/-- Every text that means a term reduces to the written term. -/
theorem Means.reduces {text : Text} {term : Term} (means : Means text term) :
    Reduces text term.written := by
  have reduces := Layered.reduces means
  rw [Term.writtenIn_of_le term.precedence_le] at reduces
  exact (Reduces.compact text).trans reduces

end Grammar

/-- Converting a text back and forth takes away blank characters and matching parentheses only. The
result has the same meaning, and every other text with this meaning is longer. -/
theorem toInfix_of_toPostfix {source output : Text} (converted : toPostfix source = .ok output) :
    ∃ shortest, toInfix output = .ok shortest ∧ Grammar.Reduces source shortest ∧
      toPostfix shortest = .ok output ∧
      ∀ other, toPostfix other = .ok output →
        shortest.length ≤ other.length ∧ (shortest.length = other.length → other = shortest) := by
  obtain ⟨term, means, rfl⟩ := toPostfix_eq_ok_iff.1 converted
  have letters : Grammar.Lettered term := Grammar.Layered.lettered means
  refine ⟨term.written, Term.toInfix_postorder letters, means.reduces,
    toPostfix_of_means (Term.means_written letters), fun other same => ?_⟩
  rcases (means_of_toPostfix letters same).reduces.eq_or_length_lt with rfl | longer
  · exact ⟨Nat.le_refl _, fun _ => rfl⟩
  · exact ⟨Nat.le_of_lt longer, fun equal => absurd equal (Nat.ne_of_lt longer)⟩

/-- Blank characters, doubled parentheses and parentheses around a tighter operator go away. -/
theorem toInfix_of_toPostfix_spaced :
    toPostfix " ( (A)+ B ) *(C-(D*E))".toList = .ok "AB+CDE*-*".toList ∧
      toInfix "AB+CDE*-*".toList = .ok "(A+B)*(C-D*E)".toList ∧
      Grammar.Reduces " ( (A)+ B ) *(C-(D*E))".toList "(A+B)*(C-D*E)".toList ∧
      toPostfix "(A+B)*(C-D*E)".toList = .ok "AB+CDE*-*".toList ∧
      ∀ other, toPostfix other = .ok "AB+CDE*-*".toList →
        13 ≤ other.length ∧ (13 = other.length → other = "(A+B)*(C-D*E)".toList) := by
  have converted : toPostfix " ( (A)+ B ) *(C-(D*E))".toList = .ok "AB+CDE*-*".toList := by rfl
  have back : toInfix "AB+CDE*-*".toList = .ok "(A+B)*(C-D*E)".toList := by rfl
  obtain ⟨shortest, found, rest⟩ := toInfix_of_toPostfix converted
  cases back.symm.trans found
  exact ⟨converted, back, rest⟩

end PolishNotation
