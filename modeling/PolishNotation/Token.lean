import PolishNotation.Fault

namespace PolishNotation

/-- A token is one operator of an expression. A negative position is unknown. -/
structure Token where
  operator : Operator
  precedence : Int
  depth : Int
  position : Int
  deriving DecidableEq

namespace Token

/-- This position marks a token whose place in the text is unknown. -/
def unknownPosition : Int := -1

/-- A token of a text has the precedence of its operator. -/
def ofOperator (operator : Operator) (depth position : Int) : Token :=
  ⟨operator, operator.precedence, depth, position⟩

/-- A negative position is unknown. -/
def known? (position : Int) : Option Int :=
  if 0 ≤ position then some position else none

/-- This function reads the text of an operator and reports any other text. -/
def read (text : Text) (depth position : Int) : Except Fault Token :=
  match Operator.ofText? text with
  | some operator => .ok (ofOperator operator depth position)
  | none => .error ⟨.unknownSymbol text, known? position⟩

/-- The tighter of two tokens has the lower precedence number. -/
def TighterThan (token other : Token) : Prop :=
  token.precedence < other.precedence

instance (token other : Token) : Decidable (token.TighterThan other) :=
  inferInstanceAs (Decidable (_ < _))

/-- This function writes a token without its position. -/
def text (token : Token) : Text :=
  token.operator.symbol :: "(depth=".toList ++ decimal token.depth ++
    ", precedence=".toList ++ decimal token.precedence ++ ")".toList

theorem read_symbol (operator : Operator) (depth position : Int) :
    read [operator.symbol] depth position = .ok (ofOperator operator depth position) := by
  simp [read, Operator.ofText?, Operator.ofSymbol?_symbol]

/-- A known position is a natural number. -/
theorem known?_natCast (position : Nat) : known? position = some (position : Int) := by
  simp [known?]

end Token

end PolishNotation
