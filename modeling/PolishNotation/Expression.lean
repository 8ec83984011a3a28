import PolishNotation.Token

/-! This file reads an expression from left to right and separates its operands from its operators. -/

namespace PolishNotation

/-- An expression consists of its operands and its operator tokens in their order. -/
structure Expression where
  operands : Text
  tokens : List Token
  deriving DecidableEq

/-- The reader knows which parentheses are open and whether an operand must follow. -/
structure Reader where
  operands : Array Char
  tokens : Array Token
  /-- These positions are the open parentheses from the innermost to the outermost. -/
  opened : List Nat
  expectsOperand : Bool

/-- This character opens a group. -/
def Expression.opening : Char := '('

/-- This character closes a group. -/
def Expression.closing : Char := ')'

namespace Reader

/-- An expression starts with an operand outside all parentheses. -/
def start : Reader :=
  ⟨#[], #[], [], true⟩

def depth (reader : Reader) : Nat :=
  reader.opened.length

/-- An operand may not follow an operand. -/
def readOperand (reader : Reader) (position : Nat) (character : Char) : Except Fault Reader :=
  if reader.expectsOperand then
    .ok { reader with operands := reader.operands.push character, expectsOperand := false }
  else .error (.located (.adjacentOperands character) position)

/-- A group may stand only in the place of an operand. -/
def readOpen (reader : Reader) (position : Nat) : Except Fault Reader :=
  if reader.expectsOperand then .ok { reader with opened := position :: reader.opened }
  else .error (.located .openAfterOperand position)

/-- A group ends after an operand of its own. -/
def readClose (reader : Reader) (position : Nat) : Except Fault Reader :=
  match reader.opened with
  | [] => .error (.located .unmatchedClose position)
  | _ :: outer =>
      if reader.expectsOperand then .error (.located .closeWithoutOperand position)
      else .ok { reader with opened := outer }

/-- An operator must follow an operand. -/
def readOperator (reader : Reader) (position : Nat) (character : Char) : Except Fault Reader :=
  match Token.read [character] reader.depth position with
  | .error fault => .error fault
  | .ok token =>
      if reader.expectsOperand then .error (.located (.missingLeftOperand token.operator) position)
      else .ok { reader with tokens := reader.tokens.push token, expectsOperand := true }

/-- The reader skips a blank character and checks any other. -/
def step (reader : Reader) (position : Nat) (character : Char) : Except Fault Reader :=
  if isBlank character then .ok reader
  else if isLetter character then reader.readOperand position character
  else if character = Expression.opening then reader.readOpen position
  else if character = Expression.closing then reader.readClose position
  else reader.readOperator position character

/-- The reader goes on until the first fault. -/
def run (reader : Reader) (position : Nat) : Text → Except Fault Reader
  | [] => .ok reader
  | character :: rest =>
      match reader.step position character with
      | .error fault => .error fault
      | .ok next => next.run (position + 1) rest

/-- At the end all groups are closed and no operand is missing. -/
def finish (reader : Reader) (length : Nat) : Except Fault Expression :=
  match reader.opened with
  | position :: _ => .error (.located .unclosedOpen position)
  | [] =>
      if reader.expectsOperand then
        if reader.operands.isEmpty then .error (.whole .emptyExpression)
        else .error (.located .missingLastOperand length)
      else .ok ⟨reader.operands.toList, reader.tokens.toList⟩

end Reader

/-- This function reads a whole text. -/
def Expression.ofText (text : Text) : Except Fault Expression :=
  match Reader.start.run 0 text with
  | .error fault => .error fault
  | .ok reader => reader.finish text.trimmedLength

namespace Reader

theorem run_cons (reader : Reader) (position : Nat) (character : Char) (rest : Text) :
    reader.run position (character :: rest) =
      (reader.step position character).bind fun next => next.run (position + 1) rest := by
  simp only [run]
  cases reader.step position character <;> rfl

/-- Reading two pieces is reading the second in the state after the first. -/
theorem run_append (reader : Reader) (position : Nat) (first second : Text) :
    reader.run position (first ++ second) =
      (reader.run position first).bind fun next => next.run (position + first.length) second := by
  induction first generalizing reader position with
  | nil => rfl
  | cons character rest ih =>
      rw [List.cons_append, run_cons, run_cons]
      cases reader.step position character with
      | error fault => rfl
      | ok next =>
          have place : position + (rest.length + 1) = position + 1 + rest.length := by omega
          simp only [Except.bind, ih, List.length_cons, place]

theorem step_blank (reader : Reader) (position : Nat) {character : Char}
    (blank : isBlank character = true) : reader.step position character = .ok reader := by
  simp [step, blank]

end Reader

end PolishNotation
