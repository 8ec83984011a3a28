import Mathlib.Logic.Relation
import PolishNotation.Grammar

namespace PolishNotation.Grammar

/-- Every parenthesis of a balanced text has its partner in the text. Other characters may stand
anywhere. -/
inductive Balanced : Text → Prop where
  | nil : Balanced []
  | plain {character : Char} {rest : Text} (opening : character ≠ Expression.opening)
      (closing : character ≠ Expression.closing) (balanced : Balanced rest) :
      Balanced (character :: rest)
  | group {inner rest : Text} (innerBalanced : Balanced inner) (restBalanced : Balanced rest) :
      Balanced (Expression.opening :: inner ++ Expression.closing :: rest)

/-- One removal takes away a blank character or two parentheses that match. -/
inductive Removes : Text → Text → Prop where
  | blank (before after : Text) {character : Char} (blank : isBlank character = true) :
      Removes (before ++ character :: after) (before ++ after)
  | pair (before after : Text) {inner : Text} (balanced : Balanced inner) :
      Removes (before ++ Expression.opening :: inner ++ Expression.closing :: after)
        (before ++ inner ++ after)

/-- A text reduces to what is left after any number of removals. -/
def Reduces : Text → Text → Prop :=
  Relation.ReflTransGen Removes

/-- These operators stand outside all parentheses of a text. -/
def outerOperators (text : Text) : List Operator :=
  ((tokensOf text).filter fun token => token.depth = 0).map Token.operator

/-- This is the precedence of the loosest operator outside all parentheses. -/
def loosest? (text : Text) : Option Int :=
  ((outerOperators text).map Operator.precedence).max?

/-- The first visible character of a text may be an operator. -/
def firstOperator? (text : Text) : Option Operator :=
  text.compact.head?.bind Operator.ofSymbol?

/-- The last visible character of a text may be an operator. -/
def lastOperator? (text : Text) : Option Operator :=
  text.compact.getLast?.bind Operator.ofSymbol?

/-- Two parentheses are needless if no operator stands directly between them, or if the operator in
front of them is looser and the operator behind them not tighter than all operators directly between
them. -/
def Needless (before inner after : Text) : Prop :=
  outerOperators inner = [] ∨
    ∃ bound, loosest? inner = some bound ∧
      (∀ operator, lastOperator? before = some operator → bound < operator.precedence) ∧
      ∀ operator, firstOperator? after = some operator → bound ≤ operator.precedence

/-- An unmatched parenthesis is open, and nothing behind it closes it. -/
def Unmatched (text : Text) (place : Nat) : Prop :=
  ∃ before after, text = before ++ Expression.opening :: after ∧ before.length = place ∧
    ∀ inner rest, Balanced inner → after ≠ inner ++ Expression.closing :: rest

/-- No unmatched parenthesis stands behind the last one. -/
def LastUnmatched (text : Text) (place : Nat) : Prop :=
  Unmatched text place ∧ ∀ other, Unmatched text other → other ≤ place

/-- A pair holds the indices of an open parenthesis and of a closed one. -/
structure Pair where
  first : Nat
  last : Nat

namespace Pair

/-- The text between two matching parentheses is balanced. -/
def Matches (pair : Pair) (text : Text) : Prop :=
  ∃ before inner after,
    text = before ++ Expression.opening :: inner ++ Expression.closing :: after ∧ Balanced inner ∧
      pair.first = before.length ∧ pair.last = before.length + 1 + inner.length

def Encloses (pair : Pair) (place : Int) : Prop :=
  pair.first < place ∧ place < pair.last

/-- Of the pairs around a place the innermost one starts last. -/
def IsInnermost (pair : Pair) (text : Text) (place : Int) : Prop :=
  pair.Matches text ∧ pair.Encloses place ∧
    ∀ other : Pair, other.Matches text → other.Encloses place → other.first ≤ pair.first

end Pair

/-- Two tokens stand directly between the same parentheses or both outside of all. -/
def SamePair (text : Text) (first second : Token) : Prop :=
  (∃ pair : Pair, pair.IsInnermost text first.position ∧ pair.IsInnermost text second.position) ∨
    ∀ pair : Pair, pair.Matches text →
      ¬ pair.Encloses first.position ∧ ¬ pair.Encloses second.position

end PolishNotation.Grammar
