import PolishNotation.Proofs.Grammar.Meaning
import PolishNotation.Proofs.Reader.Stops
import PolishNotation.Proofs.RoundTrip
import PolishNotation.Proofs.Term.Stops

namespace PolishNotation

variable {character : Char}

/-- A visible character of the basic alphabet is printable. -/
theorem isPrintable_of_toNat (lower : 0x20 ≤ character.toNat) (upper : character.toNat ≤ 0x7E) :
    isPrintable character = true := by
  have outside : ∀ range ∈ unprintableRanges, range.2 < 0x20 ∨ 0x7E < range.1 := by decide +kernel
  rw [isPrintable, Bool.not_eq_true', List.any_eq_false]
  intro range member
  have apart := outside range member
  simp only [Bool.and_eq_true, decide_eq_true_eq]
  omega

namespace Reader

/-- The characters of an expression lie in three ranges. -/
theorem toNat_of_isKnown (known : IsKnown character) :
    40 ≤ character.toNat ∧ character.toNat ≤ 47 ∨ 65 ≤ character.toNat ∧ character.toNat ≤ 90 ∨
      97 ≤ character.toNat ∧ character.toNat ≤ 122 := by
  rcases known with letter | ⟨operator, rfl⟩ | rfl | rfl
  · exact .inr (toNat_of_isLetter letter)
  · cases operator <;> decide
  · decide
  · decide

/-- No character of an expression is escaped between single quotes. -/
theorem quotedCharacter_of_isKnown (known : IsKnown character) :
    quotedCharacter singleQuote character = [character] := by
  have bounds := toNat_of_isKnown known
  have apart (other : Char) (outside : ¬ (40 ≤ other.toNat ∧ other.toNat ≤ 47 ∨
      65 ≤ other.toNat ∧ other.toNat ≤ 90 ∨ 97 ≤ other.toNat ∧ other.toNat ≤ 122)) :
      character ≠ other := by
    intro same
    exact outside (same ▸ bounds)
  apply quotedCharacter_of_isPrintable
  · exact apart singleQuote (by decide)
  · exact apart '\\' (by decide)
  · exact apart '\t' (by decide)
  · exact apart '\n' (by decide)
  · exact apart '\r' (by decide)
  · apply isPrintable_of_toNat <;> omega

/-- The text of an expression stands between single quotes as it is. -/
theorem quoted_of_isKnown {text : Text} (known : ∀ character ∈ text, IsKnown character) :
    text.quoted = singleQuote :: text ++ [singleQuote] := by
  have quoteless : singleQuote ∉ text := by
    intro present
    have bounds := toNat_of_isKnown (known singleQuote present)
    revert bounds
    decide
  have mark : text.quoteMark = singleQuote := by simp [Text.quoteMark, quoteless]
  have plain : text.flatMap (quotedCharacter singleQuote) = text := by
    have single (character : Char) (member : character ∈ text) :
        quotedCharacter singleQuote character = [character] :=
      quotedCharacter_of_isKnown (known character member)
    rw [List.flatMap_congr single]
    exact List.flatMap_singleton' text
  rw [Text.quoted, mark, plain]

end Reader

namespace Term

variable {stack : List Term} {leftovers : List Text} {text : Text}

/-- Parentheses are characters of an expression. -/
theorem isKnown_of_mem_enclosed {needed : Bool}
    (known : ∀ character ∈ text, Reader.IsKnown character)
    (member : character ∈ Text.enclosed needed text) : Reader.IsKnown character := by
  cases needed with
  | false => exact known character member
  | true =>
      rcases List.mem_cons.1 member with rfl | member
      · exact .inr (.inr (.inl rfl))
      rcases List.mem_append.1 member with inside | last
      · exact known character inside
      · exact .inr (.inr (.inr (List.mem_singleton.1 last)))

/-- A written term consists of the characters of an expression. -/
theorem isKnown_of_mem_written {term : Term} (letters : Grammar.Lettered term) :
    ∀ character ∈ term.written, Reader.IsKnown character := by
  induction term with
  | operand letter =>
      intro character member
      rw [List.mem_singleton.1 member]
      exact .inl letters
  | binary operator left right leftStep rightStep =>
      intro character member
      rcases List.mem_append.1 member with inLeft | inRest
      · exact isKnown_of_mem_enclosed (leftStep letters.1) inLeft
      rcases List.mem_cons.1 inRest with rfl | inRight
      · exact .inr (.inl ⟨operator, rfl⟩)
      · exact isKnown_of_mem_enclosed (rightStep letters.2) inRight

/-- Leftovers are no fault of a single character. -/
theorem pushAll_ne_leftover (stack : List Term) (index : Nat) (text : Text) :
    pushAll stack index text ≠ .error (.leftover leftovers) := by
  induction text generalizing stack index with
  | nil =>
      rw [pushAll_nil]
      nofun
  | cons character rest ih =>
      rw [pushAll_cons]
      cases pushed : pushToken stack index character with
      | ok next => exact ih next (index + 1)
      | error fault =>
          intro same
          cases same
          cases blocks_of_pushToken pushed

/-- Leftovers are the written terms of a stack that does not hold exactly one. -/
theorem exists_stack_of_leftover (failed : ofPostfix text = .error (.leftover leftovers)) :
    ∃ stack, pushAll [] 0 text.compact = .ok stack ∧ stack.length ≠ 1 ∧
      leftovers = stack.reverse.map written := by
  rcases pushAll_of_ofPostfix_error failed with stopped | ⟨stack, pushed, several, same⟩
  · exact absurd stopped (pushAll_ne_leftover [] 0 text.compact)
  · cases same
    exact ⟨stack, pushed, several, rfl⟩

/-- All operands that were read are letters. -/
theorem lettered_of_mem_reverse (pushed : pushAll [] 0 text = .ok stack) :
    ∀ term ∈ stack.reverse, Grammar.Lettered term := by
  intro term member
  apply lettered_of_pushAll pushed
  · intro other absent
    cases absent
  · exact List.mem_reverse.1 member

/-- Whatever was read, the terms on the stack are written as texts that are converted back, from the
lowest term to the last one, to all that was read. -/
theorem exists_outputs_of_pushAll (pushed : pushAll [] 0 text = .ok stack) :
    ∃ outputs : List Text,
      List.Forall₂ (fun text output => toPostfix text = .ok output) (stack.reverse.map written)
        outputs ∧
      outputs.flatten = text := by
  refine ⟨stack.reverse.map postorder, ?_, spelled_of_pushAll pushed⟩
  rw [List.forall₂_map_left_iff, List.forall₂_map_right_iff, List.forall₂_same]
  intro term member
  apply toPostfix_of_means
  apply means_written
  exact lettered_of_mem_reverse pushed term member

end Term

/-- If the reading ends with no text or with several, every reported leftover is converted, and the
results follow each other in the text that was read. The message counts the leftovers and shows each
of them unchanged between quotes. -/
theorem toPostfix_of_leftover {source : Text} {leftovers : List Text}
    (failed : toInfix source = .error (.leftover leftovers)) :
    leftovers.length ≠ 1 ∧
      (StackFault.leftover leftovers).message =
        "Stack must have exactly 1 value at the end, but has ".toList ++ decimal leftovers.length ++
          ". Leftovers: [".toList ++
            ", ".toList.intercalate (leftovers.map fun text => "'".toList ++ text ++ "'".toList) ++
              "]".toList ∧
      ∃ outputs : List Text,
        List.Forall₂ (fun text output => toPostfix text = .ok output) leftovers outputs ∧
          outputs.flatten = source.compact := by
  cases read : Term.ofPostfix source with
  | ok term =>
      rw [toInfix_eq, read] at failed
      cases failed
  | error fault =>
      rw [toInfix_eq, read] at failed
      cases failed
      obtain ⟨stack, pushed, several, rfl⟩ := Term.exists_stack_of_leftover read
      have lettered := Term.lettered_of_mem_reverse pushed
      have shown : (stack.reverse.map Term.written).map Text.quoted =
          (stack.reverse.map Term.written).map fun text => "'".toList ++ text ++ "'".toList := by
        apply List.map_congr_left
        rw [List.forall_mem_map]
        intro term member
        exact Reader.quoted_of_isKnown (Term.isKnown_of_mem_written (lettered term member))
      refine ⟨?_, ?_, Term.exists_outputs_of_pushAll pushed⟩
      · rwa [List.length_map, List.length_reverse]
      · show "Stack must have exactly 1 value at the end, but has ".toList ++ decimal _ ++
            ". Leftovers: ".toList ++ Text.listed (_ : List Text) = _
        rw [shown, Text.listed]
        simp only [List.append_assoc, List.cons_append]
        rfl

/-- The last two operators of this text are missing, so three texts are left. -/
theorem toPostfix_of_leftover_three :
    let leftovers := ["A+B".toList, "C*(D-E)".toList, "F".toList]
    toInfix "AB+ CDE-* F".toList = .error (.leftover leftovers) ∧
      (StackFault.leftover leftovers).message =
        ("Stack must have exactly 1 value at the end, but has 3. Leftovers: " ++
          "['A+B', 'C*(D-E)', 'F']").toList ∧
      ∃ outputs : List Text,
        List.Forall₂ (fun text output => toPostfix text = .ok output) leftovers outputs ∧
          outputs.flatten = "AB+CDE-*F".toList := by
  intro leftovers
  have failed : toInfix "AB+ CDE-* F".toList = .error (.leftover leftovers) := by decide
  obtain ⟨-, message, outputs, converted, spells⟩ := toPostfix_of_leftover failed
  exact ⟨failed, message.trans (by decide), outputs, converted, spells⟩

end PolishNotation
