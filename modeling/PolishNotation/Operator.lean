import PolishNotation.Text

namespace PolishNotation

/-- An operator joins exactly two operands. -/
inductive Operator where
  | add
  | subtract
  | multiply
  | divide
  deriving DecidableEq

namespace Operator

/-- The operators stand in the order of their table. -/
def all : List Operator := [add, subtract, multiply, divide]

def symbol : Operator → Char
  | add => '+'
  | subtract => '-'
  | multiply => '*'
  | divide => '/'

/-- A lower number binds tighter. -/
def precedence : Operator → Int
  | add | subtract => 2
  | multiply | divide => 1

/-- This function reads the symbol of an operator. -/
def ofSymbol? (character : Char) : Option Operator :=
  all.find? fun operator => operator.symbol = character

/-- A text names an operator only if it is exactly one symbol. -/
def ofText? : Text → Option Operator
  | [character] => ofSymbol? character
  | _ => none

theorem ofSymbol?_symbol (operator : Operator) : ofSymbol? operator.symbol = some operator := by
  cases operator <;> decide

theorem ofSymbol?_eq_some_iff {character : Char} {operator : Operator} :
    ofSymbol? character = some operator ↔ character = operator.symbol := by
  constructor
  · intro found
    have same := List.find?_some found
    exact (of_decide_eq_true same).symm
  · rintro rfl
    exact ofSymbol?_symbol operator

theorem symbol_injective {first second : Operator} (same : first.symbol = second.symbol) :
    first = second := by
  have found := ofSymbol?_symbol first
  rw [same, ofSymbol?_symbol] at found
  exact (Option.some.inj found).symm

end Operator

/-- An operator has one place on each side. -/
inductive Side where
  | left
  | right
  deriving DecidableEq

/-- This function writes the name of a side. -/
def Side.text : Side → Text
  | left => "left".toList
  | right => "right".toList

/-- An operand is a letter of the basic alphabet in either case. -/
def isLetter (character : Char) : Bool :=
  character.isAlpha

/-- A text is an operand only if it is exactly one letter. -/
def isLetterText : Text → Bool
  | [character] => isLetter character
  | _ => false

/-- A letter is no operator. -/
theorem ofSymbol?_of_isLetter {character : Char} (letter : isLetter character = true) :
    Operator.ofSymbol? character = none := by
  cases found : Operator.ofSymbol? character with
  | none => rfl
  | some operator =>
      rw [Operator.ofSymbol?_eq_some_iff.1 found] at letter
      cases operator <;> exact absurd letter (by decide)

/-- The letters lie in two ranges. -/
theorem toNat_of_isLetter {character : Char} (letter : isLetter character = true) :
    65 ≤ character.toNat ∧ character.toNat ≤ 90 ∨
      97 ≤ character.toNat ∧ character.toNat ≤ 122 := by
  change (decide (65 ≤ character.val ∧ character.val ≤ 90) ||
    (decide (97 ≤ character.val) && decide (character.val ≤ 122))) = true at letter
  rcases Bool.or_eq_true_iff.1 letter with upper | lower
  · have both := of_decide_eq_true upper
    exact .inl ⟨UInt32.le_iff_toNat_le.1 both.1, UInt32.le_iff_toNat_le.1 both.2⟩
  · have both := Bool.and_eq_true_iff.1 lower
    exact .inr ⟨UInt32.le_iff_toNat_le.1 (of_decide_eq_true both.1),
      UInt32.le_iff_toNat_le.1 (of_decide_eq_true both.2)⟩

theorem isTrimmed_of_isLetter {character : Char} (letter : isLetter character = true) :
    isTrimmed character = false := by
  have bounds := toNat_of_isLetter letter
  simp only [isTrimmed, trimmedRanges, List.any_cons, List.any_nil, Bool.or_false,
    Bool.or_eq_false_iff, Bool.and_eq_false_iff, decide_eq_false_iff_not]
  omega

/-- A letter is visible. -/
theorem isBlank_of_isLetter {character : Char} (letter : isLetter character = true) :
    isBlank character = false := by
  cases blank : isBlank character with
  | false => rfl
  | true =>
      have trimmed := isTrimmed_of_isBlank blank
      rw [isTrimmed_of_isLetter letter] at trimmed
      cases trimmed

end PolishNotation
