import PolishNotation.Proofs.Reader

namespace PolishNotation

namespace Grammar

/-- With some open groups and perhaps an operand to come, the rest of a text is accepted if it
completes every group and misses no operand. -/
inductive Accepts : Nat → Bool → Text → Prop where
  | finish : Accepts 0 false []
  | operand {depth : Nat} {character : Char} {rest : Text} (letter : isLetter character = true)
      (accepts : Accepts depth false rest) : Accepts depth true (character :: rest)
  | opening {depth : Nat} {rest : Text} (accepts : Accepts (depth + 1) true rest) :
      Accepts depth true (Expression.opening :: rest)
  | closing {depth : Nat} {rest : Text} (accepts : Accepts depth false rest) :
      Accepts (depth + 1) false (Expression.closing :: rest)
  | operator {depth : Nat} {rest : Text} (operator : Operator)
      (accepts : Accepts depth true rest) : Accepts depth false (operator.symbol :: rest)

/-- A flat text stands for an operand that was to come. -/
theorem Flat.accepts {kind : FlatKind} {text rest : Text} {depth : Nat} (flat : Flat kind text)
    (accepts : Accepts depth false rest) : Accepts depth true (text ++ rest) := by
  induction flat generalizing depth rest with
  | operand letter => exact .operand letter accepts
  | group inner ih => simpa using Accepts.opening (ih (.closing accepts))
  | single member ih => exact ih accepts
  | join operator member expression memberStep expressionStep =>
      simpa using memberStep (.operator operator (expressionStep accepts))

mutual

/-- This text ends every open group directly after a flat expression in it. -/
inductive Closes : Nat → Text → Prop where
  | finish : Closes 0 []
  | close {depth : Nat} {text : Text} (continues : Continues depth text) :
      Closes (depth + 1) (Expression.closing :: text)

/-- This text may go on with the expression of the innermost group before it ends the groups. -/
inductive Continues : Nat → Text → Prop where
  | stop {depth : Nat} {text : Text} (closes : Closes depth text) : Continues depth text
  | join {depth : Nat} {first rest : Text} (operator : Operator) (flat : Flat .expression first)
      (closes : Closes depth rest) : Continues depth (operator.symbol :: (first ++ rest))

end

/-- A member and what continues it are an expression and what closes it. -/
theorem Continues.exists_flat {depth : Nat} {member rest : Text} (flat : Flat .member member)
    (continues : Continues depth rest) :
    ∃ first last, member ++ rest = first ++ last ∧ Flat .expression first ∧ Closes depth last := by
  cases continues with
  | stop closes => exact ⟨member, rest, rfl, .single flat, closes⟩
  | join operator expression closes =>
      exact ⟨_, _, by simp, .join operator flat expression, closes⟩

/-- An accepted text starts with a flat expression where an operand must come, and continues one
where not. -/
theorem Accepts.exists_flat {depth : Nat} {expects : Bool} {text : Text}
    (accepts : Accepts depth expects text) :
    if expects then
      ∃ first last, text = first ++ last ∧ Flat .expression first ∧ Closes depth last
    else Continues depth text := by
  induction accepts with
  | finish => exact .stop .finish
  | operand letter accepts ih => exact Continues.exists_flat (.operand letter) ih
  | opening accepts ih =>
      obtain ⟨inner, last, rfl, flat, closes⟩ := ih
      cases closes with
      | close continues => simpa using Continues.exists_flat (.group flat) continues
  | closing accepts ih => exact .stop (.close ih)
  | operator operator accepts ih =>
      obtain ⟨first, last, rfl, flat, closes⟩ := ih
      exact .join operator flat closes

/-- From the start the flat expressions are accepted and no other text. -/
theorem accepts_iff_flat {text : Text} : Accepts 0 true text ↔ Flat .expression text := by
  constructor
  · intro accepts
    obtain ⟨first, last, rfl, flat, closes⟩ := accepts.exists_flat
    cases closes with
    | finish => rwa [List.append_nil]
  · intro flat
    simpa using flat.accepts .finish

end Grammar

variable {reader next last : Reader} {position : Nat} {character : Char}

namespace Reader

/-- What a complete run has read is accepted without its blank characters. -/
theorem accepts_of_run {text : Text} (read : reader.run position text = .ok last)
    (closed : last.opened = []) (complete : last.expectsOperand = false) :
    Grammar.Accepts reader.depth reader.expectsOperand text.compact := by
  induction text generalizing reader position with
  | nil =>
      cases read
      rw [depth, closed, complete]
      exact .finish
  | cons character rest ih =>
      obtain ⟨next, moves, read⟩ := run_cons_eq_ok_iff.1 read
      have accepts := ih read
      cases moves with
      | blank blank => rwa [Text.compact_cons_of_isBlank blank]
      | operand letter expects =>
          rw [Text.compact_cons (isBlank_of_isLetter letter), expects]
          exact .operand letter accepts
      | opening expects =>
          rw [Text.compact_cons Expression.opening_isPlain.1, expects]
          rw [expects] at accepts
          exact .opening accepts
      | closing opened complete =>
          rw [Text.compact_cons Expression.closing_isPlain.1, complete, depth, opened]
          rw [complete] at accepts
          exact .closing accepts
      | operator operator complete =>
          rw [Text.compact_cons operator.symbol_isPlain.1, complete]
          exact .operator operator accepts

theorem exists_run_cons {rest : Text} {ends : Reader → Prop}
    (moves : reader.Moves position character next)
    (exists_run : ∃ last, next.run (position + 1) rest = .ok last ∧ ends last) :
    ∃ last, reader.run position (character :: rest) = .ok last ∧ ends last := by
  obtain ⟨last, read, satisfied⟩ := exists_run
  exact ⟨last, run_cons_eq_ok_iff.2 ⟨next, moves, read⟩, satisfied⟩

/-- A text that is accepted without its blank characters has a complete run. -/
theorem exists_run_of_accepts {text : Text} {depth : Nat} {expects : Bool}
    (accepts : Grammar.Accepts depth expects text.compact) (sameDepth : reader.depth = depth)
    (sameState : reader.expectsOperand = expects) :
    ∃ last, reader.run position text = .ok last ∧ last.opened = [] ∧
      last.expectsOperand = false := by
  induction text generalizing reader position depth expects with
  | nil =>
      cases accepts with
      | finish => exact ⟨reader, rfl, List.length_eq_zero_iff.1 sameDepth, sameState⟩
  | cons character rest ih =>
      cases visible : isBlank character with
      | true =>
          rw [Text.compact_cons_of_isBlank visible] at accepts
          exact exists_run_cons (.blank visible) (ih accepts sameDepth sameState)
      | false =>
          rw [Text.compact_cons visible] at accepts
          cases accepts with
          | operand letter accepts =>
              exact exists_run_cons (.operand letter sameState) (ih accepts sameDepth rfl)
          | opening accepts =>
              apply exists_run_cons (.opening sameState) (ih accepts ?_ sameState)
              rw [← sameDepth]
              rfl
          | closing accepts =>
              obtain ⟨start, outer, opened⟩ := List.exists_of_length_succ reader.opened sameDepth
              apply exists_run_cons (.closing opened sameState) (ih accepts ?_ sameState)
              rw [depth, opened] at sameDepth
              exact Nat.succ.inj sameDepth
          | operator operator accepts =>
              exact exists_run_cons (.operator operator sameState) (ih accepts sameDepth rfl)

end Reader

namespace Expression

/-- A text is read exactly if it is a flat expression without its blank characters. -/
theorem exists_ofText_iff {text : Text} :
    (∃ expression, ofText text = .ok expression) ↔ Grammar.Flat .expression text.compact := by
  rw [← Grammar.accepts_iff_flat]
  constructor
  · intro ⟨expression, read⟩
    obtain ⟨reader, read, closed, complete, -⟩ := ofText_eq_ok_iff_run.1 read
    exact Reader.accepts_of_run read closed complete
  · intro accepts
    have accepted : ∃ reader, Reader.start.run 0 text = .ok reader ∧ reader.opened = [] ∧
        reader.expectsOperand = false := Reader.exists_run_of_accepts accepts rfl rfl
    obtain ⟨reader, read, closed, complete⟩ := accepted
    exact ⟨_, ofText_eq_ok_iff_run.2 ⟨reader, read, closed, complete, rfl⟩⟩

/-- A text that can be read has a run over each of its beginnings. -/
theorem exists_run_of_append {before rest : Text} {expression : Expression}
    (read : ofText (before ++ rest) = .ok expression) :
    ∃ reader, Reader.start.run 0 before = .ok reader := by
  obtain ⟨last, run, -⟩ := ofText_eq_ok_iff_run.1 read
  rw [Reader.run_append] at run
  cases first : Reader.start.run 0 before with
  | error fault =>
      rw [first] at run
      cases run
  | ok reader => exact ⟨reader, rfl⟩

/-- Behind a run the text can be read exactly if the state of the reader accepts the rest. -/
theorem exists_ofText_append_iff {before rest : Text} {reader : Reader}
    (read : Reader.start.run 0 before = .ok reader) :
    (∃ expression, ofText (before ++ rest) = .ok expression) ↔
      Grammar.Accepts reader.depth reader.expectsOperand rest.compact := by
  have later : Reader.start.run 0 (before ++ rest) = reader.run (0 + before.length) rest := by
    rw [Reader.run_append, read]
    rfl
  constructor
  · rintro ⟨expression, whole⟩
    obtain ⟨last, run, closed, complete, -⟩ := ofText_eq_ok_iff_run.1 whole
    exact Reader.accepts_of_run (later.symm.trans run) closed complete
  · intro accepts
    obtain ⟨last, run, closed, complete⟩ := Reader.exists_run_of_accepts accepts rfl rfl
    exact ⟨_, ofText_eq_ok_iff_run.2 ⟨last, later.trans run, closed, complete, rfl⟩⟩

/-- The texts that can be read are the flat expressions with blank characters anywhere, and the
result holds the letters and the operator characters of the text in their order. -/
theorem ofText_eq_ok_iff_flat (text : Text) (expression : Expression) :
    ofText text = .ok expression ↔
      Grammar.Flat .expression text.compact ∧
        expression = ⟨text.filter isLetter, Grammar.tokensOf text⟩ := by
  constructor
  · intro read
    exact ⟨exists_ofText_iff.1 ⟨expression, read⟩, eq_of_ofText read⟩
  · intro ⟨flat, same⟩
    obtain ⟨found, read⟩ := exists_ofText_iff.2 flat
    rw [same, ← eq_of_ofText read]
    exact read

end Expression

end PolishNotation
