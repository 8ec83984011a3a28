import PolishNotation.Proofs.Events
import PolishNotation.Proofs.Reader.Stops
import PolishNotation.Proofs.Term.Stops
import PolishNotation.Proofs.Tree.Drawing

namespace PolishNotation

theorem feed_notMem_toDigits (value : Nat) : '\n' ∉ Nat.toDigits 16 value := by
  have digit (place : Nat) : '\n' ≠ place.digitChar := (Nat.digitChar_ne '\n' rfl).symm
  induction value using Nat.strongRecOn with
  | ind value ih =>
      rw [Nat.toDigits_eq_if (by decide)]
      split
      · simp [digit]
      · rename_i large
        have front := ih (value / 16) (Nat.div_lt_self (by omega) (by decide))
        simp [digit, front]

theorem feed_notMem_escapeCode (code : Nat) : '\n' ∉ escapeCode code := by
  have digits (width : Nat) : '\n' ∉ hexadecimal width code := by
    simp [hexadecimal, feed_notMem_toDigits]
  unfold escapeCode
  split_ifs
  · simp [digits]
  · simp [digits]
  · simp [digits]

/-- Inside quotes a line feed is escaped. -/
theorem feed_notMem_quotedCharacter {quote : Char} (other : '\n' ≠ quote) (character : Char) :
    '\n' ∉ quotedCharacter quote character := by
  by_cases feed : '\n' = character
  · simp [quotedCharacter, ← feed, other]
  · unfold quotedCharacter
    split_ifs
    · simp [feed]
    · decide
    · decide
    · decide
    · simp [feed]
    · exact feed_notMem_escapeCode character.toNat

theorem feed_notMem_intercalate {separator : Text} {members : List Text}
    (unbroken : '\n' ∉ separator) (unbrokenMembers : ∀ member ∈ members, '\n' ∉ member) :
    '\n' ∉ separator.intercalate members := by
  induction members with
  | nil => simp
  | cons member rest ih =>
      rw [List.forall_mem_cons] at unbrokenMembers
      have behind := ih unbrokenMembers.2
      cases rest with
      | nil => simpa using unbrokenMembers.1
      | cons next others => simp [unbroken, unbrokenMembers.1, behind]

namespace Text

/-- A quoted text stands on one line. -/
theorem feed_notMem_quoted (text : Text) : '\n' ∉ text.quoted := by
  have mark : '\n' ≠ text.quoteMark := by
    unfold quoteMark
    split <;> decide
  simp [quoted, mark, feed_notMem_quotedCharacter mark]

theorem feed_notMem_listed {members : List Text} (unbroken : ∀ member ∈ members, '\n' ∉ member) :
    '\n' ∉ listed members := by
  have comma : '\n' ∉ [',', ' '] := by decide
  simp [listed, feed_notMem_intercalate comma unbroken]

end Text

theorem feed_notMem_decimal (value : Int) : '\n' ∉ decimal value :=
  notMem_decimal '\n' (by decide) (by decide) value

theorem feed_ne_of_visible {character : Char} (visible : isBlank character = false) :
    '\n' ≠ character := by
  intro same
  rw [← same] at visible
  exact absurd visible (by decide)

namespace Event

variable (side : Side) (parent : Token)

theorem feed_notMem_text_side : '\n' ∉ side.text := by
  cases side <;> decide

theorem feed_notMem_line_scanned (source : Text) {expression : Expression}
    (unbroken : '\n' ∉ expression.operands) : '\n' ∉ (scanned source expression).line := by
  have tokens : '\n' ∉ " ".toList.intercalate (expression.tokens.map Token.text) := by
    apply feed_notMem_intercalate (by decide)
    rw [List.forall_mem_map]
    exact fun token _ => token.feed_notMem_text
  rw [line_scanned]
  simpa [source.feed_notMem_quoted, unbroken] using tokens

theorem feed_notMem_line_linked (child : Token) : '\n' ∉ (linked child side parent).line := by
  show '\n' ∉ "intopo.tree: Linked ".toList ++ child.text ++ " as ".toList ++ side.text ++
    " child of ".toList ++ parent.text
  simp [child.feed_notMem_text, feed_notMem_text_side, parent.feed_notMem_text]

theorem feed_notMem_line_attached {operand : Text} (unbroken : '\n' ∉ operand) :
    '\n' ∉ (attached operand side parent).line := by
  show '\n' ∉ "intopo.tree: Attached operand '".toList ++ operand ++ "' as ".toList ++ side.text ++
    " child of ".toList ++ parent.text
  simp [unbroken, feed_notMem_text_side, parent.feed_notMem_text]

end Event

namespace Expression

variable {text : Text} {expression : Expression}

theorem feed_notMem_operands (read : ofText text = .ok expression) :
    '\n' ∉ expression.operands := by
  rw [eq_of_ofText read]
  intro member
  have letter := (List.mem_filter.1 member).2
  exact absurd letter (by decide)

/-- The construction reports every event on one line. -/
theorem feed_notMem_line_construct (unbroken : '\n' ∉ expression.operands) {event : Event}
    (reported : event ∈ expression.construct.events) : '\n' ∉ event.line := by
  by_cases empty : expression.tokens = []
  · rw [construct_of_tokens_eq_nil empty] at reported
    cases reported
  · obtain ⟨links, places, events, -, -⟩ := exists_events_construct empty
    rw [events] at reported
    cases List.mem_append.1 reported with
    | inl linked =>
        obtain ⟨link, -, rfl⟩ := List.mem_map.1 linked
        exact Event.feed_notMem_line_linked _ _ _
    | inr attached =>
        obtain ⟨entry, member, rfl⟩ := List.mem_map.1 attached
        apply Event.feed_notMem_line_attached
        have given : entry.2 ∈ expression.operands := (List.of_mem_zip member).2
        intro feed
        rw [List.mem_singleton.1 feed] at unbroken
        exact unbroken given

end Expression

namespace Conversion

variable {text : Text}

/-- A conversion reports every event on one line. -/
theorem feed_notMem_line {event : Event} (reported : event ∈ events text) :
    '\n' ∉ event.line := by
  cases read : Expression.ofText text with
  | error fault =>
      rw [events_of_error read] at reported
      cases reported
  | ok expression =>
      have unbroken := Expression.feed_notMem_operands read
      rw [events_of_ok read] at reported
      cases reported with
      | head => exact Event.feed_notMem_line_scanned text unbroken
      | tail _ later => exact Expression.feed_notMem_line_construct unbroken later

end Conversion

theorem feed_notMem_messageAt (position : Option Int) {description : Text}
    (unbroken : '\n' ∉ description) : '\n' ∉ messageAt position description := by
  cases position with
  | none => exact unbroken
  | some place =>
      show '\n' ∉ "Position ".toList ++ decimal place ++ ": ".toList ++ description
      simp [feed_notMem_decimal, unbroken]

theorem feed_notMem_symbol (operator : Operator) : '\n' ≠ operator.symbol := by
  cases operator <;> decide

namespace Reader

variable {reader : Reader} {position : Nat} {character : Char} {fault : Fault}

/-- A reader that stops describes its fault on one line, because the character is visible. -/
theorem feed_notMem_message_of_stops (stops : reader.Stops position character fault) :
    '\n' ∉ fault.message := by
  have visible := feed_ne_of_visible (position_of_stops stops).1
  apply feed_notMem_messageAt
  cases stops with
  | unknown =>
      show '\n' ∉ "Unknown operator '".toList ++ [character] ++ "'".toList
      simp [visible]
  | operand =>
      show '\n' ∉ "Operand '".toList ++ [character] ++
        "' must be separated from the previous operand by an operator".toList
      simp [visible]
  | opening =>
      show '\n' ∉ FaultCause.openAfterOperand.description
      decide
  | unmatched =>
      show '\n' ∉ FaultCause.unmatchedClose.description
      decide
  | closing =>
      show '\n' ∉ FaultCause.closeWithoutOperand.description
      decide
  | operator operator =>
      show '\n' ∉ "Operator '".toList ++ [operator.symbol] ++
        "' is missing its left operand".toList
      simp [visible]

theorem feed_notMem_message_of_lacks {length : Nat} (lacks : reader.Lacks length fault) :
    '\n' ∉ fault.message := by
  apply feed_notMem_messageAt
  cases lacks with
  | close =>
      show '\n' ∉ FaultCause.unclosedOpen.description
      decide
  | everything =>
      show '\n' ∉ FaultCause.emptyExpression.description
      decide
  | operand =>
      show '\n' ∉ FaultCause.missingLastOperand.description
      decide

end Reader

/-- A text that cannot be converted is refused on one line. -/
theorem Conversion.feed_notMem_message {text : Text} {fault : Fault}
    (refused : ofText text = .error fault) : '\n' ∉ fault.message := by
  cases read : Expression.ofText text with
  | ok expression =>
      obtain ⟨conversion, converted⟩ := exists_ofText read
      cases refused.symm.trans converted
  | error found =>
      rw [ofText_eq, read] at refused
      cases refused
      rw [Expression.ofText] at read
      cases run : Reader.start.run 0 text with
      | error stopped =>
          rw [run] at read
          cases read
          obtain ⟨_, _, _, _, -, -, stops⟩ := Reader.exists_stops_of_run run
          exact Reader.feed_notMem_message_of_stops stops
      | ok reader =>
          rw [run] at read
          exact Reader.feed_notMem_message_of_lacks (Reader.finish_eq_error_iff.1 read)

/-- A text that is no word is refused on one line, because leftovers are quoted. -/
theorem StackFault.feed_notMem_message {text : Text} {fault : StackFault}
    (refused : toInfix text = .error fault) : '\n' ∉ fault.message := by
  cases read : Term.ofPostfix text with
  | ok term =>
      rw [toInfix_eq, read] at refused
      cases refused
  | error found =>
      rw [toInfix_eq, read] at refused
      cases refused
      have unbroken {shown : Text} (refuses : Grammar.Refuses text.compact fault shown) :
          '\n' ∉ shown := by
        cases refuses with
        | underflow => simp [feed_notMem_decimal, feed_notMem_symbol]
        | unknownToken first found =>
            have member := List.mem_of_getElem? found
            have visible := (List.mem_filter.1 member).2
            have other := feed_ne_of_visible (by simpa using visible)
            simp [feed_notMem_decimal, other]
        | @leftover leftovers =>
            have quoted : ∀ member ∈ leftovers.map Text.quoted, '\n' ∉ member := by
              rw [List.forall_mem_map]
              exact fun leftover _ => leftover.feed_notMem_quoted
            simp [feed_notMem_decimal, Text.feed_notMem_listed quoted]
      exact unbroken (Term.refuses_of_ofPostfix read)

end PolishNotation
