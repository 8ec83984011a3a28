/-! This file fixes the texts that the library reads and the characters that count as blank. -/

namespace PolishNotation

/-- A text is its sequence of characters. -/
abbrev Text := List Char

/-- These closed ranges hold the code points with the Unicode property White_Space in increasing
order. -/
def blankRanges : List (Nat × Nat) :=
  [(0x0009, 0x000D), (0x0020, 0x0020), (0x0085, 0x0085), (0x00A0, 0x00A0), (0x1680, 0x1680),
    (0x2000, 0x200A), (0x2028, 0x2029), (0x202F, 0x202F), (0x205F, 0x205F), (0x3000, 0x3000)]

/-- A blank character lies in one of the blank ranges. -/
def isBlank (character : Char) : Bool :=
  blankRanges.any fun range => range.1 ≤ character.toNat && character.toNat ≤ range.2

/-- These closed ranges hold the code points that are trimmed at the end of a text: white space by
bidirectional type or by general category, which adds the four separators of information to the
blank characters. -/
def trimmedRanges : List (Nat × Nat) :=
  [(0x0009, 0x000D), (0x001C, 0x0020), (0x0085, 0x0085), (0x00A0, 0x00A0), (0x1680, 0x1680),
    (0x2000, 0x200A), (0x2028, 0x2029), (0x202F, 0x202F), (0x205F, 0x205F), (0x3000, 0x3000)]

def isTrimmed (character : Char) : Bool :=
  trimmedRanges.any fun range => range.1 ≤ character.toNat && character.toNat ≤ range.2

/-- Every blank character is trimmed, because each blank range lies in a trimmed one. -/
theorem isTrimmed_of_isBlank {character : Char} (blank : isBlank character = true) :
    isTrimmed character = true := by
  have covered : ∀ range ∈ blankRanges, ∃ wider ∈ trimmedRanges,
      wider.1 ≤ range.1 ∧ range.2 ≤ wider.2 := by decide
  obtain ⟨range, listed, inside⟩ := List.any_eq_true.1 blank
  obtain ⟨wider, trimmed, below, above⟩ := covered range listed
  refine List.any_eq_true.2 ⟨wider, trimmed, ?_⟩
  simp only [Bool.and_eq_true, decide_eq_true_eq] at inside ⊢
  omega

namespace Text

/-- This function removes every blank character. -/
def compact (text : Text) : Text :=
  text.filter fun character => !isBlank character

/-- This length leaves out the characters at the end that are trimmed. -/
def trimmedLength (text : Text) : Nat :=
  (text.reverse.dropWhile isTrimmed).length

theorem compact_nil : compact [] = [] := rfl

theorem compact_append (first second : Text) :
    compact (first ++ second) = compact first ++ compact second := by
  simp [compact]

theorem compact_compact (text : Text) : compact (compact text) = compact text := by
  simp [compact, List.filter_filter]

/-- A separator that neither text has cuts both at the same place. -/
theorem eq_of_append_separator {first second rest other : Text} {separator : Char}
    (outside : separator ∉ first) (otherOutside : separator ∉ second)
    (same : first ++ separator :: rest = second ++ separator :: other) :
    first = second ∧ rest = other := by
  have cut {text behind : Text} (absent : separator ∉ text) :
      (text ++ separator :: behind).takeWhile (· ≠ separator) = text := by
    rw [List.takeWhile_append_of_pos]
    · simp
    · intro character present
      exact decide_eq_true fun equal => absent (equal ▸ present)
  have texts : first = second := by rw [← cut outside, same, cut otherOutside]
  rw [texts] at same
  exact ⟨texts, (List.cons.inj (List.append_cancel_left same)).2⟩

/-- What is trimmed behind a character that stays does not count. -/
theorem trimmedLength_append {before rest : Text} {character : Char}
    (stays : isTrimmed character = false) (trimmed : ∀ other ∈ rest, isTrimmed other = true) :
    trimmedLength (before ++ character :: rest) = before.length + 1 := by
  have reversed : (before ++ character :: rest).reverse =
      rest.reverse ++ character :: before.reverse := by simp
  rw [trimmedLength, reversed, List.dropWhile_append_of_pos (by simpa using trimmed)]
  simp [stays]

/-- A line feed ends one line and starts the next. -/
def lines (text : Text) : List Text :=
  text.splitOn '\n'

/-- This function writes one line feed between neighbours. -/
def joinLines (parts : List Text) : Text :=
  ['\n'].intercalate parts

/-- Lines that are joined can be cut apart again if no line breaks. -/
theorem lines_joinLines {parts : List Text} (unbroken : ∀ part ∈ parts, '\n' ∉ part)
    (some : parts ≠ []) : lines (joinLines parts) = parts :=
  List.splitOn_intercalate '\n' unbroken some

end Text

end PolishNotation
