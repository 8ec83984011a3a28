import PolishNotation.Operator
import PolishNotation.Text.Quoted

namespace PolishNotation

/-- The index of a fault counts the visible characters in front of it. -/
inductive StackFault where
  | underflow (operator : Operator) (index available : Nat)
  | unknownToken (character : Char) (index : Nat)
  | leftover (texts : List Text)
  deriving DecidableEq

/-- This function describes a fault. -/
def StackFault.message : StackFault → Text
  | underflow operator index available =>
      "Stack underflow for operator '".toList ++ [operator.symbol] ++ "' at token ".toList ++
        decimal index ++ ". Need 2, have ".toList ++ decimal available ++ ".".toList
  | unknownToken character index =>
      "Invalid or unknown token: '".toList ++ [character] ++ "' at position ".toList ++
        decimal index ++ ".".toList
  | leftover texts =>
      "Stack must have exactly 1 value at the end, but has ".toList ++ decimal texts.length ++
        ". Leftovers: ".toList ++ Text.listed (texts.map Text.quoted)

/-- This function encloses a text in parentheses if it must. -/
def Text.enclosed (needed : Bool) (text : Text) : Text :=
  if needed then '(' :: text ++ [')'] else text

/-- A phrase is a text with the precedence of its outermost operator. -/
structure Phrase where
  text : Text
  precedence : Int
  deriving DecidableEq

namespace Phrase

/-- An operand never needs parentheses, so it binds tighter than every operator. -/
def ofOperand (character : Char) : Phrase :=
  ⟨[character], 0⟩

/-- A left text needs parentheses if it is looser than the operator, and a right text also if it is
equally loose. -/
def join (operator : Operator) (left right : Phrase) : Phrase :=
  ⟨Text.enclosed (operator.precedence < left.precedence) left.text ++ operator.symbol ::
      Text.enclosed (operator.precedence ≤ right.precedence) right.text,
    operator.precedence⟩

/-- An operator takes the last phrase as its right side and the one before as its left side. -/
def joinLast (operator : Operator) (index : Nat) :
    List Phrase → Except StackFault (List Phrase)
  | right :: left :: below => .ok (join operator left right :: below)
  | stack => .error (.underflow operator index stack.length)

/-- An operand becomes the last phrase of the stack. -/
def pushToken (stack : List Phrase) (index : Nat) (character : Char) :
    Except StackFault (List Phrase) :=
  match Operator.ofSymbol? character with
  | some operator => joinLast operator index stack
  | none =>
      if isLetter character then .ok (ofOperand character :: stack)
      else .error (.unknownToken character index)

/-- The loop goes on until the first fault. -/
def pushAll (stack : List Phrase) (index : Nat) : Text → Except StackFault (List Phrase)
  | [] => .ok stack
  | character :: rest =>
      match pushToken stack index character with
      | .error fault => .error fault
      | .ok next => pushAll next (index + 1) rest

end Phrase

/-- This function puts every operator between its operands and drops needless parentheses. Exactly
one phrase must be left in the end. -/
def toInfix (text : Text) : Except StackFault Text :=
  match Phrase.pushAll [] 0 text.compact with
  | .error fault => .error fault
  | .ok [phrase] => .ok phrase.text
  | .ok stack => .error (.leftover (stack.reverse.map Phrase.text))

end PolishNotation
