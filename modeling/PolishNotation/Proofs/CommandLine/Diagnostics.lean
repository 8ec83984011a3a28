import PolishNotation.Proofs.CommandLine.Contribution
import PolishNotation.Proofs.Unbroken

namespace PolishNotation.CommandLine

theorem writtenLines_flatMap {Item : Type} (items : List Item) (lines : Item → List Text) :
    writtenLines (items.flatMap lines) = items.flatMap fun item => writtenLines (lines item) :=
  List.flatMap_assoc

/-- A line feed at the end of every line stands between the lines and an empty line behind them. -/
theorem writtenLines_eq (lines : List Text) :
    writtenLines lines = Text.joinLines (lines ++ [[]]) := by
  induction lines with
  | nil => rfl
  | cons line rest ih =>
      have some : rest ++ [[]] ≠ [] := by simp
      rw [List.cons_append, Text.joinLines, List.intercalate_cons_of_ne_nil some]
      rw [Text.joinLines] at ih
      rw [← ih]
      simp [writtenLines]

variable {lines : List Text}

theorem lines_writtenLines (unbroken : ∀ line ∈ lines, '\n' ∉ line) :
    Text.lines (writtenLines lines) = lines ++ [[]] := by
  rw [writtenLines_eq]
  apply Text.lines_joinLines
  · rw [List.forall_mem_append, List.forall_mem_singleton]
    exact ⟨unbroken, List.not_mem_nil⟩
  · simp

/-- Records are removed line by line from a written text. -/
theorem withoutRecords_writtenLines (unbroken : ∀ line ∈ lines, '\n' ∉ line) :
    withoutRecords (writtenLines lines) = writtenLines (lines.filter fun line => !isRecord line) := by
  have last : isRecord [] = false := rfl
  rw [withoutRecords, lines_writtenLines unbroken, List.filter_append, writtenLines_eq]
  simp [last]

/-- The events are the diagnostics that are written as records. -/
theorem Diagnostic.isRecord_line (diagnostic : Diagnostic) :
    isRecord diagnostic.line = !diagnostic.isFailure := by
  cases diagnostic with
  | failure message => rfl
  | event occurred => cases occurred <;> rfl

/-- Without its records the text of the diagnostics consists of the failures. -/
theorem Part.withoutRecords_outcome {part : Part}
    (unbroken : ∀ diagnostic ∈ part.diagnostics, '\n' ∉ diagnostic.line) :
    withoutRecords part.outcome.diagnostics =
      writtenLines (part.failures.map Diagnostic.line) := by
  have kept : (fun line => !isRecord line) ∘ Diagnostic.line = Diagnostic.isFailure := by
    funext diagnostic
    simp [Diagnostic.isRecord_line]
  rw [outcome, withoutRecords_writtenLines (List.forall_mem_map.2 unbroken), List.filter_map, kept,
    failures]

variable {options : Options} {memo : Memo}

/-- A faulty expression is described on one line. -/
theorem feed_notMem_of_linesOrMessage {expression message : Text}
    (refused : linesOrMessage options expression = .error message) : '\n' ∉ message := by
  unfold linesOrMessage at refused
  split at refused
  · split at refused
    · rename_i fault failed
      cases refused
      exact StackFault.feed_notMem_message failed
    · cases refused
  · split at refused
    · rename_i fault failed
      cases refused
      exact Conversion.feed_notMem_message failed
    · cases refused

/-- Every diagnostic of an expression stands on one line. -/
theorem feed_notMem_line_ofResult {events : List Event} {expression : Text}
    (reported : events ⊆ Conversion.events expression) :
    ∀ diagnostic ∈ (Part.ofResult (Part.shown options events)
      (linesOrMessage options expression)).diagnostics, '\n' ∉ diagnostic.line := by
  have shown : ∀ diagnostic ∈ Part.shown options events, '\n' ∉ diagnostic.line := by
    unfold Part.shown
    split
    · rw [List.forall_mem_map]
      exact fun event member => Conversion.feed_notMem_line (reported member)
    · exact List.forall_mem_nil _
  cases outcome : linesOrMessage options expression with
  | ok lines => exact shown
  | error message =>
      have unbroken := feed_notMem_of_linesOrMessage outcome
      rw [Part.ofResult, List.forall_mem_append, List.forall_mem_singleton]
      refine ⟨shown, ?_⟩
      show '\n' ∉ "Error: ".toList ++ message
      simp [unbroken]

theorem feed_notMem_line_expressionParts (options : Options) (faithful : memo.IsFaithful)
    (expressions : List Text) :
    ∀ diagnostic ∈ (expressionParts options memo expressions).diagnostics,
      '\n' ∉ diagnostic.line := by
  induction expressions generalizing memo with
  | nil => exact List.forall_mem_nil _
  | cons expression rest ih =>
      obtain ⟨events, next, reported, nextFaithful, same⟩ :=
        exists_expressionPart options faithful expression
      rw [expressionParts, same]
      exact List.forall_mem_append.2 ⟨feed_notMem_line_ofResult reported, ih nextFaithful⟩

end PolishNotation.CommandLine
