import PolishNotation.Expression
import PolishNotation.Term

/-! This file states the grammars of the texts that the library reads. -/

namespace PolishNotation.Grammar

/-- A flat text is a whole expression or one of its members. -/
inductive FlatKind where
  | expression
  | member
  deriving DecidableEq

/-- A text without blank characters belongs to a kind. -/
inductive Flat : FlatKind → Text → Prop where
  | operand {character : Char} (letter : isLetter character = true) : Flat .member [character]
  | group {text : Text} (inner : Flat .expression text) :
      Flat .member (Expression.opening :: text ++ [Expression.closing])
  | single {text : Text} (member : Flat .member text) : Flat .expression text
  | join {first rest : Text} (operator : Operator) (member : Flat .member first)
      (expression : Flat .expression rest) :
      Flat .expression (first ++ operator.symbol :: rest)

/-- The depth of an index is the difference between the open and the closed parentheses in front of
it. -/
def depthAt (text : Text) (index : Nat) : Int :=
  (text.take index).count Expression.opening - (text.take index).count Expression.closing

/-- Every operator character stands for one token with its depth and its index. -/
def tokensOf (text : Text) : List Token :=
  text.zipIdx.filterMap fun entry =>
    (Operator.ofSymbol? entry.1).map fun operator =>
      .ofOperator operator (depthAt text entry.2) entry.2

/-- A layer says which operators may stand outside all parentheses. -/
inductive Layer where
  | sum
  | product
  | factor
  deriving DecidableEq

/-- A text without blank characters belongs to a layer and means a term. -/
inductive Layered : Layer → Text → Term → Prop where
  | operand {character : Char} (letter : isLetter character = true) :
      Layered .factor [character] (.operand character)
  | group {text : Text} {term : Term} (inner : Layered .sum text term) :
      Layered .factor (Expression.opening :: text ++ [Expression.closing]) term
  | ofFactor {text : Text} {term : Term} (factor : Layered .factor text term) :
      Layered .product text term
  | ofProduct {text : Text} {term : Term} (product : Layered .product text term) :
      Layered .sum text term
  | product {operator : Operator} {leftText rightText : Text} {left right : Term}
      (tight : operator = .multiply ∨ operator = .divide)
      (leftProduct : Layered .product leftText left)
      (rightFactor : Layered .factor rightText right) :
      Layered .product (leftText ++ operator.symbol :: rightText) (.binary operator left right)
  | sum {operator : Operator} {leftText rightText : Text} {left right : Term}
      (loose : operator = .add ∨ operator = .subtract)
      (leftSum : Layered .sum leftText left)
      (rightProduct : Layered .product rightText right) :
      Layered .sum (leftText ++ operator.symbol :: rightText) (.binary operator left right)

/-- An expression is a sum with blank characters anywhere. -/
def Means (text : Text) (term : Term) : Prop :=
  Layered .sum text.compact term

/-- A word is one operand or two words with an operator behind them. -/
inductive Word : Text → Prop where
  | operand {character : Char} (letter : isLetter character = true) : Word [character]
  | join {left right : Text} (operator : Operator) (leftWord : Word left) (rightWord : Word right) :
      Word (left ++ right ++ [operator.symbol])

/-- The balance counts the operands and subtracts the operators. -/
def balance (text : Text) : Int :=
  text.countP isLetter - text.countP fun character => (Operator.ofSymbol? character).isSome

/-- A term has letters for all its operands. -/
def Lettered : Term → Prop
  | .operand character => isLetter character = true
  | .binary _ left right => Lettered left ∧ Lettered right

theorem Word.postorder {term : Term} (letters : Lettered term) : Word term.postorder := by
  induction term with
  | operand character => exact .operand letters
  | binary operator left right leftStep rightStep =>
      exact .join operator (leftStep letters.1) (rightStep letters.2)

/-- Every word is the text of a term. -/
theorem Word.exists_term {text : Text} (word : Word text) :
    ∃ term : Term, Lettered term ∧ term.postorder = text := by
  induction word with
  | operand letter => exact ⟨.operand _, letter, rfl⟩
  | join operator _ _ leftStep rightStep =>
      obtain ⟨left, leftLetters, rfl⟩ := leftStep
      obtain ⟨right, rightLetters, rfl⟩ := rightStep
      exact ⟨.binary operator left right, ⟨leftLetters, rightLetters⟩, rfl⟩

end PolishNotation.Grammar
