import PolishNotation.Expression
import PolishNotation.Text.Quoted

namespace PolishNotation

/-- An event is one completed step of a conversion. -/
inductive Event where
  | scanned (source : Text) (expression : Expression)
  | linked (child : Token) (side : Side) (parent : Token)
  | attached (operand : Text) (side : Side) (parent : Token)
  deriving DecidableEq

namespace Event

/-- This function writes an event on one line. -/
def line : Event → Text
  | scanned source expression =>
      "intopo.scanner: Scanned ".toList ++ source.quoted ++ ": operands=".toList ++
        expression.operands ++ " operators=".toList ++
          " ".toList.intercalate (expression.tokens.map Token.text)
  | linked child side parent =>
      "intopo.tree: Linked ".toList ++ child.text ++ " as ".toList ++ side.text ++
        " child of ".toList ++ parent.text
  | attached operand side parent =>
      "intopo.tree: Attached operand '".toList ++ operand ++ "' as ".toList ++ side.text ++
        " child of ".toList ++ parent.text

theorem line_scanned (source : Text) (expression : Expression) :
    (scanned source expression).line =
      "intopo.scanner: Scanned ".toList ++ source.quoted ++ ": operands=".toList ++
        expression.operands ++ " operators=".toList ++
          " ".toList.intercalate (expression.tokens.map Token.text) := rfl

variable {Entry : Type}

/-- The line of a link names the child, its side and its parent. -/
theorem map_line_linked (entries : List Entry) (child parent : Entry → Token)
    (side : Entry → Side) :
    (entries.map fun entry => linked (child entry) (side entry) (parent entry)).map line =
      entries.map fun entry => "intopo.tree: Linked ".toList ++ (child entry).text ++
        " as ".toList ++ (side entry).text ++ " child of ".toList ++ (parent entry).text := by
  rw [List.map_map]
  rfl

/-- The line of an operand names it, its side and the operator that takes it. -/
theorem map_line_attached (entries : List Entry) (operand : Entry → Text)
    (parent : Entry → Token) (side : Entry → Side) :
    (entries.map fun entry => attached (operand entry) (side entry) (parent entry)).map line =
      entries.map fun entry => "intopo.tree: Attached operand '".toList ++ operand entry ++
        "' as ".toList ++ (side entry).text ++ " child of ".toList ++ (parent entry).text := by
  rw [List.map_map]
  rfl

end Event

/-- A report has a result or a fault and the events that led to it. -/
structure Report (Result : Type) where
  result : Except Fault Result
  events : List Event

end PolishNotation
