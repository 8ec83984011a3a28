import PolishNotation.Links
import PolishNotation.Tree.Drawing

namespace PolishNotation

/-- A conversion holds its source, every intermediate result and its output. -/
structure Conversion where
  source : Text
  expression : Expression
  tree : Tree
  output : Text
  deriving DecidableEq

namespace Conversion

/-- The output is the text of the tree. -/
def ofTree (source : Text) (expression : Expression) (tree : Tree) : Conversion :=
  ⟨source, expression, tree, tree.postorder⟩

/-- A source that cannot be read reports no event. -/
def report (source : Text) : Report Conversion :=
  match Expression.ofText source with
  | .error fault => ⟨.error fault, []⟩
  | .ok expression =>
      let construction := expression.construct
      ⟨construction.result.map (ofTree source expression),
        .scanned source expression :: construction.events⟩

/-- This function converts a source and keeps the intermediate results. -/
def ofText (source : Text) : Except Fault Conversion :=
  (report source).result

/-- These events are reported while a source is converted. -/
def events (source : Text) : List Event :=
  (report source).events

/-- A conversion reads its source and builds the tree. -/
theorem ofText_eq (source : Text) :
    ofText source = (Expression.ofText source).bind fun expression =>
      expression.tree.map (ofTree source expression) := by
  unfold ofText report
  cases Expression.ofText source <;> rfl

end Conversion

/-- This function puts every operator behind its operands. -/
def toPostfix (source : Text) : Except Fault Text :=
  (Conversion.ofText source).map Conversion.output

end PolishNotation
