import PolishNotation.Proofs.Reader

namespace PolishNotation

namespace Reader

variable {reader next last : Reader} {position : Nat} {character : Char} {fault : Fault}

/-- An expression consists of letters, operators and parentheses, besides blank characters. -/
def IsKnown (character : Char) : Prop :=
  isLetter character = true ∨ (∃ operator : Operator, character = operator.symbol) ∨
    character = Expression.opening ∨ character = Expression.closing

/-- A reader stops at a character that is not allowed in its state. An unknown character is refused in
every state, and a parenthesis without a partner before one without an operand. -/
inductive Stops (reader : Reader) (position : Nat) : Char → Fault → Prop where
  | unknown {character : Char} (visible : isBlank character = false)
      (unknown : ¬ IsKnown character) :
      Stops reader position character (.located (.unknownSymbol [character]) position)
  | operand {character : Char} (letter : isLetter character = true)
      (complete : reader.expectsOperand = false) :
      Stops reader position character (.located (.adjacentOperands character) position)
  | opening (complete : reader.expectsOperand = false) :
      Stops reader position Expression.opening (.located .openAfterOperand position)
  | unmatched (closed : reader.opened = []) :
      Stops reader position Expression.closing (.located .unmatchedClose position)
  | closing (opened : reader.opened ≠ []) (expects : reader.expectsOperand = true) :
      Stops reader position Expression.closing (.located .closeWithoutOperand position)
  | operator (operator : Operator) (expects : reader.expectsOperand = true) :
      Stops reader position operator.symbol (.located (.missingLeftOperand operator) position)

theorem not_isKnown_iff : ¬ IsKnown character ↔
    isLetter character = false ∧ Operator.ofSymbol? character = none ∧
      character ≠ Expression.opening ∧ character ≠ Expression.closing := by
  simp only [IsKnown, not_or, not_exists, Bool.not_eq_true, Option.eq_none_iff_forall_ne_some,
    ne_eq, Operator.ofSymbol?_eq_some_iff]

theorem step_of_stops (stops : reader.Stops position character fault) :
    reader.step position character = .error fault := by
  cases stops with
  | unknown visible unknown =>
      obtain ⟨noLetter, noOperator, noOpening, noClosing⟩ := not_isKnown_iff.1 unknown
      simp [step, visible, noLetter, noOpening, noClosing, readOperator, Token.read,
        Operator.ofText?, noOperator, Token.known?_natCast, Fault.located]
  | operand letter complete =>
      simp [step, isBlank_of_isLetter letter, letter, readOperand, complete]
  | opening complete => simp [step, Expression.opening_isPlain, readOpen, complete]
  | unmatched closed => simp [step, Expression.closing_isPlain, readClose, closed]
  | closing opened expects =>
      obtain ⟨start, outer, same⟩ := List.exists_cons_of_ne_nil opened
      simp [step, Expression.closing_isPlain, readClose, same, expects]
  | operator operator expects =>
      simp [step, operator.symbol_isPlain, readOperator, Token.read_symbol, expects,
        Token.ofOperator]

/-- Every character is allowed in the state of the reader or stops it. -/
theorem exists_moves_or_stops (reader : Reader) (position : Nat) (character : Char) :
    (∃ next, reader.Moves position character next) ∨
      ∃ fault, reader.Stops position character fault := by
  cases visible : isBlank character with
  | true => exact .inl ⟨_, .blank visible⟩
  | false =>
      by_cases known : IsKnown character
      · rcases known with letter | ⟨operator, rfl⟩ | rfl | rfl
        · cases expects : reader.expectsOperand with
          | true => exact .inl ⟨_, .operand letter expects⟩
          | false => exact .inr ⟨_, .operand letter expects⟩
        · cases expects : reader.expectsOperand with
          | true => exact .inr ⟨_, .operator operator expects⟩
          | false => exact .inl ⟨_, .operator operator expects⟩
        · cases expects : reader.expectsOperand with
          | true => exact .inl ⟨_, .opening expects⟩
          | false => exact .inr ⟨_, .opening expects⟩
        · cases opened : reader.opened with
          | nil => exact .inr ⟨_, .unmatched opened⟩
          | cons start outer =>
              cases expects : reader.expectsOperand with
              | true => exact .inr ⟨_, .closing (by simp [opened]) expects⟩
              | false => exact .inl ⟨_, .closing opened expects⟩
      · exact .inr ⟨_, .unknown visible known⟩

/-- The stops are the steps that find a fault. -/
theorem step_eq_error_iff :
    reader.step position character = .error fault ↔ reader.Stops position character fault := by
  refine ⟨fun failed => ?_, step_of_stops⟩
  rcases exists_moves_or_stops reader position character with ⟨next, moves⟩ | ⟨found, stops⟩
  · cases failed.symm.trans (step_of_moves moves)
  · cases failed.symm.trans (step_of_stops stops)
    exact stops

/-- The character of a stop is visible, and the fault stands at it. -/
theorem position_of_stops (stops : reader.Stops position character fault) :
    isBlank character = false ∧ fault.position = some (position : Int) := by
  cases stops with
  | unknown visible => exact ⟨visible, rfl⟩
  | operand letter => exact ⟨isBlank_of_isLetter letter, rfl⟩
  | opening => exact ⟨Expression.opening_isPlain.1, rfl⟩
  | unmatched => exact ⟨Expression.closing_isPlain.1, rfl⟩
  | closing => exact ⟨Expression.closing_isPlain.1, rfl⟩
  | operator operator => exact ⟨operator.symbol_isPlain.1, rfl⟩

/-- A run finds a fault where it stops, behind a beginning that it has read. -/
theorem exists_stops_of_run {text : Text} (failed : reader.run position text = .error fault) :
    ∃ before character after stopped, text = before ++ character :: after ∧
      reader.run position before = .ok stopped ∧
        stopped.Stops (position + before.length) character fault := by
  induction text generalizing reader position with
  | nil => cases failed
  | cons character rest ih =>
      rw [run_cons] at failed
      cases read : reader.step position character with
      | error found =>
          rw [read] at failed
          cases failed
          exact ⟨[], character, rest, reader, rfl, rfl, step_eq_error_iff.1 read⟩
      | ok next =>
          rw [read] at failed
          obtain ⟨before, stop, after, stopped, rfl, run, stops⟩ := ih failed
          have place : position + (before.length + 1) = position + 1 + before.length := by omega
          refine ⟨character :: before, stop, after, stopped, rfl, ?_, ?_⟩
          · rw [run_cons, read]
            exact run
          · rwa [List.length_cons, place]

/-- At the end of a text a group may be open or an operand may be missing. An open group is reported
first, and a text without any operand is empty. -/
inductive Lacks (reader : Reader) (length : Nat) : Fault → Prop where
  | close {start : Nat} {outer : List Nat} (opened : reader.opened = start :: outer) :
      Lacks reader length (.located .unclosedOpen start)
  | everything (closed : reader.opened = []) (expects : reader.expectsOperand = true)
      (empty : reader.operands.toList = []) : Lacks reader length (.whole .emptyExpression)
  | operand (closed : reader.opened = []) (expects : reader.expectsOperand = true)
      (some : reader.operands.toList ≠ []) :
      Lacks reader length (.located .missingLastOperand length)

theorem finish_of_lacks {length : Nat} (lacks : reader.Lacks length fault) :
    reader.finish length = .error fault := by
  cases lacks with
  | close opened => simp [finish, opened]
  | everything closed expects empty =>
      have none : reader.operands = #[] := Array.toList_eq_nil_iff.1 empty
      simp [finish, closed, expects, none]
  | operand closed expects some =>
      have filled : reader.operands ≠ #[] := fun none => some (Array.toList_eq_nil_iff.2 none)
      simp [finish, closed, expects, filled]

/-- What the reader lacks at the end is a fault. -/
theorem finish_eq_error_iff {length : Nat} :
    reader.finish length = .error fault ↔ reader.Lacks length fault := by
  refine ⟨fun failed => ?_, finish_of_lacks⟩
  have found (other : Fault) (lacks : reader.Lacks length other) : reader.Lacks length fault := by
    cases failed.symm.trans (finish_of_lacks lacks)
    exact lacks
  cases opened : reader.opened with
  | cons start outer => exact found _ (.close opened)
  | nil =>
      cases expects : reader.expectsOperand with
      | true =>
          by_cases empty : reader.operands.toList = []
          · exact found _ (.everything opened expects empty)
          · exact found _ (.operand opened expects empty)
      | false => cases failed.symm.trans (finish_eq_ok_iff.2 ⟨opened, expects, rfl⟩)

/-- A reader passes over blank and known characters only. -/
theorem isBlank_or_isKnown_of_moves (moves : reader.Moves position character next) :
    isBlank character = true ∨ IsKnown character := by
  cases moves with
  | blank blank => exact .inl blank
  | operand letter => exact .inr (.inl letter)
  | opening => exact .inr (.inr (.inr (.inl rfl)))
  | closing => exact .inr (.inr (.inr (.inr rfl)))
  | operator operator => exact .inr (.inr (.inl ⟨operator, rfl⟩))

/-- No known character is trimmed. -/
theorem isTrimmed_of_isKnown (known : IsKnown character) : isTrimmed character = false := by
  rcases known with letter | ⟨operator, rfl⟩ | rfl | rfl
  · exact isTrimmed_of_isLetter letter
  · cases operator <;> decide
  · decide
  · decide

/-- In a text that is read to its end, trimming ends behind the last visible character: the characters
that are trimmed without being blank are unknown to the reader. -/
theorem trimmedLength_of_run {before blanks : Text}
    (read : reader.run position (before ++ character :: blanks) = .ok last)
    (visible : isBlank character = false) (blank : blanks.compact = []) :
    Text.trimmedLength (before ++ character :: blanks) = before.length + 1 := by
  obtain ⟨reached, -, behind⟩ := run_append_eq_ok_iff.1 read
  obtain ⟨next, moves, -⟩ := run_cons_eq_ok_iff.1 behind
  rcases isBlank_or_isKnown_of_moves moves with invisible | known
  · cases visible.symm.trans invisible
  · refine Text.trimmedLength_append (isTrimmed_of_isKnown known) fun other member => ?_
    rw [Text.compact, List.filter_eq_nil_iff] at blank
    have otherBlank : isBlank other = true := by simpa using blank other member
    exact isTrimmed_of_isBlank otherBlank

end Reader

end PolishNotation
