import PolishNotation.Operator
import PolishNotation.Text.Decimal
import PolishNotation.Text.Quoted

namespace PolishNotation

/-- The kinds of fault form a tree below the kind of all faulty expressions. -/
inductive FaultKind where
  | expression
  | unknownSymbol
  | unbalanced
  | malformed
  | ambiguous
  | noSingleRoot
  deriving DecidableEq

/-- The lineage of a kind starts with the kind and ends with the kind of all faulty expressions. -/
def FaultKind.lineage : FaultKind → List FaultKind
  | expression => [expression]
  | unknownSymbol => [unknownSymbol, expression]
  | unbalanced => [unbalanced, expression]
  | malformed => [malformed, expression]
  | ambiguous => [ambiguous, expression]
  | noSingleRoot => [noSingleRoot, ambiguous, expression]

/-- A cause says which rule an expression breaks. No expression has an endless tree: this cause
stands for links that lead around in a circle, so that following them would not end. -/
inductive FaultCause where
  | unknownSymbol (text : Text)
  | unmatchedClose
  | unclosedOpen
  | adjacentOperands (operand : Char)
  | openAfterOperand
  | closeWithoutOperand
  | missingLeftOperand (operator : Operator)
  | emptyExpression
  | missingLastOperand
  | operandCount (count : Nat)
  | missingOperand (side : Side) (operator : Operator)
  | unusedOperands (operands : Text)
  | rootCount (roots : List Int)
  | endlessTree
  deriving DecidableEq

namespace FaultCause

def kind : FaultCause → FaultKind
  | unknownSymbol _ => .unknownSymbol
  | unmatchedClose | unclosedOpen => .unbalanced
  | adjacentOperands _ | openAfterOperand | closeWithoutOperand | missingLeftOperand _ |
      emptyExpression | missingLastOperand => .malformed
  | operandCount _ | missingOperand _ _ | unusedOperands _ | endlessTree => .ambiguous
  | rootCount _ => .noSingleRoot

/-- This function describes a cause without its position. -/
def description : FaultCause → Text
  | unknownSymbol text => "Unknown operator '".toList ++ text ++ "'".toList
  | unmatchedClose => "')' has no matching '('".toList
  | unclosedOpen => "'(' is never closed".toList
  | adjacentOperands operand =>
      "Operand '".toList ++ [operand] ++
        "' must be separated from the previous operand by an operator".toList
  | openAfterOperand => "'(' cannot follow an operand".toList
  | closeWithoutOperand => "')' must follow an operand".toList
  | missingLeftOperand operator =>
      "Operator '".toList ++ [operator.symbol] ++ "' is missing its left operand".toList
  | emptyExpression => "Expression is empty".toList
  | missingLastOperand => "Expression ends without an operand".toList
  | operandCount count =>
      "Expected a single operand without operators, got ".toList ++ decimal count
  | missingOperand side operator =>
      "Ran out of operands for the ".toList ++ side.text ++ " side of operator '".toList ++
        [operator.symbol] ++ "'".toList
  | unusedOperands operands =>
      "Operands '".toList ++ operands ++ "' are not used by any operator".toList
  | rootCount [] => "No root operator found".toList
  | rootCount (root :: rest) =>
      "Expected exactly one root operator, found ".toList ++ decimal (rest.length + 1) ++
        " at token indices ".toList ++ Text.listed ((root :: rest).map decimal)
  | endlessTree => "Operator links do not end in operands".toList

end FaultCause

/-- This message refuses a text that is not the symbol of an operator. -/
def Operator.refusal (text : Text) : Text :=
  text.quoted ++ " is not a valid Operator".toList

/-- This function puts a known position in front of a description. -/
def messageAt (position : Option Int) (description : Text) : Text :=
  match position with
  | some place => "Position ".toList ++ decimal place ++ ": ".toList ++ description
  | none => description

/-- A fault has a position unless it concerns the expression as a whole. -/
structure Fault where
  cause : FaultCause
  position : Option Int
  deriving DecidableEq

namespace Fault

def kind (fault : Fault) : FaultKind :=
  fault.cause.kind

def message (fault : Fault) : Text :=
  messageAt fault.position fault.cause.description

/-- A fault at a character has the index of the character as its position. -/
def located (cause : FaultCause) (position : Nat) : Fault :=
  ⟨cause, some position⟩

/-- A fault of the whole expression has no position. -/
def whole (cause : FaultCause) : Fault :=
  ⟨cause, none⟩

end Fault

end PolishNotation
