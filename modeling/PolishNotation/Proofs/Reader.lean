import PolishNotation.Proofs.Grammar.Tokens

namespace PolishNotation

namespace Reader

/-- A reader moves over a character that is allowed in its state. -/
inductive Moves (reader : Reader) (position : Nat) : Char → Reader → Prop where
  | blank {character : Char} (blank : isBlank character = true) :
      Moves reader position character reader
  | operand {character : Char} (letter : isLetter character = true)
      (expects : reader.expectsOperand = true) :
      Moves reader position character
        { reader with operands := reader.operands.push character, expectsOperand := false }
  | opening (expects : reader.expectsOperand = true) :
      Moves reader position Expression.opening
        { reader with opened := position :: reader.opened }
  | closing {start : Nat} {outer : List Nat} (opened : reader.opened = start :: outer)
      (complete : reader.expectsOperand = false) :
      Moves reader position Expression.closing { reader with opened := outer }
  | operator (operator : Operator) (complete : reader.expectsOperand = false) :
      Moves reader position operator.symbol
        { reader with
          tokens := reader.tokens.push (.ofOperator operator reader.depth position)
          expectsOperand := true }

variable {reader next last : Reader} {position : Nat} {character : Char}

theorem step_of_moves (moves : reader.Moves position character next) :
    reader.step position character = .ok next := by
  cases moves with
  | blank blank => exact step_blank reader position blank
  | operand letter expects =>
      simp [step, isBlank_of_isLetter letter, letter, readOperand, expects]
  | opening expects => simp [step, Expression.opening_isPlain, readOpen, expects]
  | closing opened complete =>
      simp [step, Expression.closing_isPlain, readClose, opened, complete]
  | operator operator complete =>
      simp [step, operator.symbol_isPlain, readOperator, Token.read_symbol, complete]

theorem moves_of_readOperand (letter : isLetter character = true)
    (read : reader.readOperand position character = .ok next) :
    reader.Moves position character next := by
  unfold readOperand at read
  split at read
  · cases read
    exact .operand letter ‹_›
  · cases read

theorem moves_of_readOpen (read : reader.readOpen position = .ok next) :
    reader.Moves position Expression.opening next := by
  unfold readOpen at read
  split at read
  · cases read
    exact .opening ‹_›
  · cases read

theorem moves_of_readClose (read : reader.readClose position = .ok next) :
    reader.Moves position Expression.closing next := by
  unfold readClose at read
  split at read
  · cases read
  · split at read
    · cases read
    · cases read
      exact .closing ‹_› (eq_false_of_ne_true ‹_›)

theorem moves_of_readOperator (read : reader.readOperator position character = .ok next) :
    reader.Moves position character next := by
  unfold readOperator Token.read Operator.ofText? at read
  cases found : Operator.ofSymbol? character with
  | none => simp [found] at read
  | some operator =>
      rw [Operator.ofSymbol?_eq_some_iff.1 found] at read ⊢
      simp only [Operator.ofSymbol?_symbol] at read
      split at read
      · cases read
      · cases read
        exact .operator operator (eq_false_of_ne_true ‹_›)

theorem moves_of_step (read : reader.step position character = .ok next) :
    reader.Moves position character next := by
  unfold step at read
  split at read
  · cases read
    exact .blank ‹_›
  split at read
  · exact moves_of_readOperand ‹_› read
  split at read
  · rename_i same
    exact same ▸ moves_of_readOpen read
  split at read
  · rename_i same
    exact same ▸ moves_of_readClose read
  · exact moves_of_readOperator read

/-- The moves are the steps that find no fault. -/
theorem step_eq_ok_iff :
    reader.step position character = .ok next ↔ reader.Moves position character next :=
  ⟨moves_of_step, step_of_moves⟩

theorem run_cons_eq_ok_iff {rest : Text} :
    reader.run position (character :: rest) = .ok last ↔
      ∃ next, reader.Moves position character next ∧ next.run (position + 1) rest = .ok last := by
  rw [run_cons]
  simp only [← step_eq_ok_iff]
  cases reader.step position character with
  | error fault => simp [Except.bind]
  | ok next => simp [Except.bind]

/-- A run over two pieces passes over the first one and goes on with the second one. -/
theorem run_append_eq_ok_iff {first second : Text} :
    reader.run position (first ++ second) = .ok last ↔
      ∃ next, reader.run position first = .ok next ∧
        next.run (position + first.length) second = .ok last := by
  rw [run_append]
  cases reader.run position first with
  | error fault => simp [Except.bind]
  | ok next => simp [Except.bind]

/-- What every move keeps, while its character joins the text so far, holds after a run. -/
theorem run_invariant (Invariant : Reader → Text → Prop) (text : Text)
    (move : ∀ {reader next : Reader} {text : Text} {character : Char}, Invariant reader text →
      reader.Moves text.length character next → Invariant next (text ++ [character]))
    {rest : Text} (before : Invariant reader text)
    (read : reader.run text.length rest = .ok last) : Invariant last (text ++ rest) := by
  induction rest generalizing reader text with
  | nil =>
      cases read
      rwa [List.append_nil]
  | cons character rest ih =>
      obtain ⟨next, moves, read⟩ := run_cons_eq_ok_iff.1 read
      have after := move before moves
      rw [← List.length_singleton (a := character), ← List.length_append] at read
      simpa using ih (text ++ [character]) after read

/-- At the end no group is open and no operand is missing. -/
theorem finish_eq_ok_iff {length : Nat} {expression : Expression} :
    reader.finish length = .ok expression ↔
      reader.opened = [] ∧ reader.expectsOperand = false ∧
        expression = ⟨reader.operands.toList, reader.tokens.toList⟩ := by
  unfold finish
  cases opened : reader.opened with
  | cons start outer => simp
  | nil =>
      cases expects : reader.expectsOperand with
      | true => by_cases empty : reader.operands.isEmpty <;> simp [empty]
      | false => simp [eq_comm]

/-- The record of a reader holds what stands in the text so far. -/
structure HasRead (reader : Reader) (text : Text) : Prop where
  operands : reader.operands.toList = text.filter isLetter
  tokens : reader.tokens.toList = Grammar.tokensOf text
  depth : (reader.depth : Int) = Grammar.netDepth text

theorem hasRead_start : start.HasRead [] :=
  ⟨rfl, rfl, rfl⟩

/-- Every move adds its character to what has been read. -/
theorem HasRead.move {text : Text} (before : reader.HasRead text)
    (moves : reader.Moves text.length character next) : next.HasRead (text ++ [character]) := by
  obtain ⟨operands, tokens, depth⟩ := before
  constructor
  · rw [List.filter_append, ← operands]
    cases moves with
    | blank blank => simp [isLetter_of_isBlank blank]
    | operand letter => simp [letter]
    | opening => simp [Expression.opening_isPlain]
    | closing => simp [Expression.closing_isPlain]
    | operator operator => simp [operator.symbol_isPlain]
  · rw [Grammar.tokensOf_append_singleton, Grammar.tokenOf?, ← tokens, ← depth]
    cases moves with
    | blank blank => simp [ofSymbol?_of_isBlank blank]
    | operand letter => simp [ofSymbol?_of_isLetter letter]
    | opening => simp [Expression.opening_isPlain]
    | closing => simp [Expression.closing_isPlain]
    | operator operator => simp [Operator.ofSymbol?_symbol]
  · rw [Grammar.netDepth_append, ← depth]
    cases moves with
    | blank blank => rw [Grammar.netDepth_of_isBlank blank, Int.add_zero]
    | operand letter =>
        rw [Grammar.netDepth_of_isLetter letter, Int.add_zero]
        rfl
    | opening => rfl
    | @closing start outer opened =>
        show (outer.length : Int) = reader.opened.length + Grammar.netDepth [Expression.closing]
        rw [Grammar.netDepth_closing, opened, List.length_cons]
        omega
    | operator operator =>
        rw [Grammar.netDepth_symbol, Int.add_zero]
        rfl

/-- A run adds its text to what has been read. -/
theorem HasRead.run {text rest : Text} (before : reader.HasRead text)
    (read : reader.run text.length rest = .ok last) : last.HasRead (text ++ rest) :=
  run_invariant HasRead _ HasRead.move before read

/-- A reader that expects an operand has as many operands as operators, and else one more. -/
def Alternates (reader : Reader) : Prop :=
  reader.operands.size + (if reader.expectsOperand then 1 else 0) = reader.tokens.size + 1

theorem Alternates.move (alternates : reader.Alternates)
    (moves : reader.Moves position character next) : next.Alternates := by
  unfold Alternates at *
  cases moves with
  | blank => exact alternates
  | operand letter expects => simpa [expects] using alternates
  | opening => exact alternates
  | closing => exact alternates
  | operator operator complete => simpa [complete] using alternates

theorem Alternates.run {text : Text} (alternates : reader.Alternates)
    (read : reader.run 0 text = .ok last) : last.Alternates :=
  run_invariant (fun reader _ => reader.Alternates) [] Alternates.move alternates read

end Reader

namespace Expression

theorem ofText_eq_ok_iff_run {text : Text} {expression : Expression} :
    ofText text = .ok expression ↔
      ∃ reader, Reader.start.run 0 text = .ok reader ∧ reader.opened = [] ∧
        reader.expectsOperand = false ∧
          expression = ⟨reader.operands.toList, reader.tokens.toList⟩ := by
  unfold ofText
  cases read : Reader.start.run 0 text with
  | error fault => simp
  | ok reader => simp [Reader.finish_eq_ok_iff]

/-- The letters of a text are its operands and its operator characters are its tokens. -/
theorem eq_of_ofText {text : Text} {expression : Expression}
    (read : ofText text = .ok expression) :
    expression = ⟨text.filter isLetter, Grammar.tokensOf text⟩ := by
  obtain ⟨reader, read, -, -, same⟩ := ofText_eq_ok_iff_run.1 read
  have hasRead := Reader.hasRead_start.run read
  rw [same, hasRead.operands, hasRead.tokens, List.nil_append]

/-- An expression that is read has one operand more than operators. -/
theorem length_operands_of_ofText {text : Text} {expression : Expression}
    (read : ofText text = .ok expression) :
    expression.operands.length = expression.tokens.length + 1 := by
  obtain ⟨reader, read, -, complete, same⟩ := ofText_eq_ok_iff_run.1 read
  have start : Reader.start.Alternates := rfl
  have alternates := start.run read
  rw [Reader.Alternates, complete] at alternates
  rw [same]
  simpa using alternates

end Expression

end PolishNotation
