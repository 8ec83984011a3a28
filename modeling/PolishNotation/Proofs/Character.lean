import Mathlib.Data.List.Induction
import PolishNotation.Expression

namespace PolishNotation

variable {character : Char}

/-- A parenthesis is neither blank nor a letter nor an operator. -/
theorem Expression.opening_isPlain :
    isBlank Expression.opening = false ∧ isLetter Expression.opening = false ∧
      Operator.ofSymbol? Expression.opening = none := by
  decide

theorem Expression.closing_isPlain :
    isBlank Expression.closing = false ∧ isLetter Expression.closing = false ∧
      Operator.ofSymbol? Expression.closing = none ∧ Expression.closing ≠ Expression.opening := by
  decide

/-- A letter is no parenthesis. -/
theorem ne_parenthesis_of_isLetter (letter : isLetter character = true) :
    character ≠ Expression.opening ∧ character ≠ Expression.closing := by
  constructor
  · rintro rfl
    simp [Expression.opening_isPlain] at letter
  · rintro rfl
    simp [Expression.closing_isPlain] at letter

/-- A blank character is no parenthesis. -/
theorem ne_parenthesis_of_isBlank (blank : isBlank character = true) :
    character ≠ Expression.opening ∧ character ≠ Expression.closing := by
  constructor
  · rintro rfl
    simp [Expression.opening_isPlain] at blank
  · rintro rfl
    simp [Expression.closing_isPlain] at blank

/-- The symbol of an operator belongs to no other kind of character. -/
theorem Operator.symbol_isPlain (operator : Operator) :
    isBlank operator.symbol = false ∧ isLetter operator.symbol = false ∧
      operator.symbol ≠ Expression.opening ∧ operator.symbol ≠ Expression.closing := by
  cases operator <;> decide

/-- A blank character is no operator. -/
theorem ofSymbol?_of_isBlank (blank : isBlank character = true) :
    Operator.ofSymbol? character = none := by
  cases found : Operator.ofSymbol? character with
  | none => rfl
  | some operator =>
      rw [Operator.ofSymbol?_eq_some_iff.1 found, operator.symbol_isPlain.1] at blank
      cases blank

theorem isLetter_of_isBlank (blank : isBlank character = true) :
    isLetter character = false := by
  cases letter : isLetter character with
  | false => rfl
  | true =>
      rw [isBlank_of_isLetter letter] at blank
      cases blank

theorem Text.compact_cons_of_isBlank (blank : isBlank character = true)
    (rest : Text) : Text.compact (character :: rest) = Text.compact rest := by
  simp [Text.compact, blank]

theorem Text.compact_cons (visible : isBlank character = false)
    (rest : Text) : Text.compact (character :: rest) = character :: Text.compact rest := by
  simp [Text.compact, visible]

/-- A text with a visible character ends with blank characters behind the last visible one. -/
theorem Text.exists_last_visible {text : Text} (some : text.compact ≠ []) :
    ∃ before character blanks, text = before ++ character :: blanks ∧
      isBlank character = false ∧ Text.compact blanks = [] := by
  induction text using List.reverseRecOn with
  | nil => exact absurd rfl some
  | append_singleton before character ih =>
      cases visible : isBlank character with
      | false => exact ⟨before, character, [], rfl, visible, rfl⟩
      | true =>
          rw [compact_append, compact_cons_of_isBlank visible, compact_nil, List.append_nil] at some
          obtain ⟨front, last, blanks, rfl, lastVisible, blank⟩ := ih some
          refine ⟨front, last, blanks ++ [character], by simp, lastVisible, ?_⟩
          rw [compact_append, compact_cons_of_isBlank visible, blank, compact_nil, List.append_nil]

/-- The letters of a text are visible. -/
theorem Text.filter_isLetter_compact (text : Text) :
    text.compact.filter isLetter = text.filter isLetter := by
  rw [compact, List.filter_filter]
  apply List.filter_congr
  intro character member
  cases letter : isLetter character with
  | false => rfl
  | true => simp [isBlank_of_isLetter letter]

end PolishNotation
