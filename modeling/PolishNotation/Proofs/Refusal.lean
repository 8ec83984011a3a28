import PolishNotation.Proofs.Grammar.Nesting
import PolishNotation.Proofs.Reader.Stops

namespace PolishNotation

/-- A text is the beginning of an expression if further characters can complete it. -/
def Expression.IsBeginning (text : Text) : Prop :=
  ∃ rest expression, Expression.ofText (text ++ rest) = .ok expression

namespace Fault

/-- A fault at a character concerns the first character with which no expression begins. The kind of
the fault follows from the character and from the number of the parentheses in front of it. -/
structure IsAtCharacter (fault : Fault) (before : Text) (character : Char) : Prop where
  position : fault.position = some (before.length : Int)
  visible : isBlank character = false
  completable : Expression.IsBeginning before
  stuck : ¬ Expression.IsBeginning (before ++ [character])
  unknownSymbol : fault.kind = .unknownSymbol ↔ ¬ Reader.IsKnown character
  named : fault.kind = .unknownSymbol → fault.cause = .unknownSymbol [character]
  unbalanced : fault.kind = .unbalanced ↔ character = Expression.closing ∧
    before.count Expression.closing = before.count Expression.opening
  malformed : fault.kind = .malformed ↔ Reader.IsKnown character ∧
    ¬ (character = Expression.closing ∧
      before.count Expression.closing = before.count Expression.opening)

/-- A fault at the end concerns a text that can be completed. It names the last unmatched parenthesis,
or the end of the visible text if all parentheses match. -/
structure IsAtEnd (fault : Fault) (text : Text) : Prop where
  completable : Expression.IsBeginning text
  incomplete : ¬ ∃ expression, Expression.ofText text = .ok expression
  unclosed : (∃ place, Grammar.Unmatched text place) → fault.kind = .unbalanced ∧
    ∃ place : Nat, Grammar.LastUnmatched text place ∧ fault.position = some (place : Int)
  closed : (¬ ∃ place, Grammar.Unmatched text place) → fault.kind = .malformed ∧
    (text.compact = [] → fault.position = none) ∧
    (text.compact ≠ [] → ∃ before character blanks, text = before ++ character :: blanks ∧
      isBlank character = false ∧ Text.compact blanks = [] ∧
        fault.position = some ((before.length + 1 : Nat) : Int))

end Fault

namespace Grammar

/-- Every state of a reader accepts some text: the missing operand and the closed parentheses. -/
theorem exists_accepts (depth : Nat) (expects : Bool) :
    ∃ rest : Text, Accepts depth expects rest.compact := by
  have closes : Accepts depth false (List.replicate depth Expression.closing) := by
    induction depth with
    | zero => exact .finish
    | succ depth ih => exact .closing ih
  have visible : Text.compact (List.replicate depth Expression.closing) =
      List.replicate depth Expression.closing :=
    List.filter_eq_self.2 fun character member => by
      rw [List.eq_of_mem_replicate member]
      decide
  cases expects with
  | false =>
      refine ⟨List.replicate depth Expression.closing, ?_⟩
      rwa [visible]
  | true =>
      have letter : isLetter 'A' = true := by decide
      refine ⟨'A' :: List.replicate depth Expression.closing, ?_⟩
      rw [Text.compact_cons (isBlank_of_isLetter letter), visible]
      exact .operand letter closes

end Grammar

/-- The beginnings of expressions are the texts that the reader passes over. -/
theorem Expression.isBeginning_iff {text : Text} :
    IsBeginning text ↔ ∃ reader, Reader.start.run 0 text = .ok reader := by
  constructor
  · rintro ⟨rest, expression, read⟩
    exact exists_run_of_append read
  · rintro ⟨reader, run⟩
    obtain ⟨rest, accepts⟩ := Grammar.exists_accepts reader.depth reader.expectsOperand
    exact ⟨rest, (exists_ofText_append_iff run).2 accepts⟩

namespace Reader

open Grammar

variable {reader next : Reader} {text before : Text} {character : Char} {fault : Fault}

/-- No group is open behind a text with as many closed parentheses as open ones. -/
theorem opened_eq_nil_iff (read : start.run 0 text = .ok reader) :
    reader.opened = [] ↔ text.count Expression.closing = text.count Expression.opening := by
  have depth := (hasRead_start.run read).depth
  rw [List.nil_append, netDepth, Reader.depth] at depth
  rw [← List.length_eq_zero_iff]
  omega

/-- The kind of a stop follows from its character and from the open groups. -/
theorem kind_of_stops {position : Nat} (stops : reader.Stops position character fault) :
    ¬ IsKnown character ∧ fault.cause = .unknownSymbol [character] ∨
      (character = Expression.closing ∧ reader.opened = []) ∧ fault.kind = .unbalanced ∨
      (IsKnown character ∧ ¬ (character = Expression.closing ∧ reader.opened = [])) ∧
        fault.kind = .malformed := by
  cases stops with
  | unknown visible unknown => exact .inl ⟨unknown, rfl⟩
  | operand letter =>
      have noClosing := (ne_parenthesis_of_isLetter letter).2
      exact .inr (.inr ⟨⟨.inl letter, fun both => noClosing both.1⟩, rfl⟩)
  | opening =>
      have noClosing := Expression.closing_isPlain.2.2.2.symm
      exact .inr (.inr ⟨⟨.inr (.inr (.inl rfl)), fun both => noClosing both.1⟩, rfl⟩)
  | unmatched closed => exact .inr (.inl ⟨⟨rfl, closed⟩, rfl⟩)
  | closing opened =>
      exact .inr (.inr ⟨⟨.inr (.inr (.inr rfl)), fun both => opened both.2⟩, rfl⟩)
  | operator operator =>
      have noClosing := operator.symbol_isPlain.2.2.2
      exact .inr (.inr ⟨⟨.inr (.inl ⟨operator, rfl⟩), fun both => noClosing both.1⟩, rfl⟩)

/-- A reader that stops finds the fault of the character. -/
theorem isAtCharacter_of_stops (read : start.run 0 before = .ok reader)
    (stops : reader.Stops before.length character fault) :
    fault.IsAtCharacter before character := by
  have stuck : ¬ Expression.IsBeginning (before ++ [character]) := by
    rw [Expression.isBeginning_iff]
    rintro ⟨next, whole⟩
    rw [run_append, read] at whole
    obtain ⟨passed, moves, -⟩ := run_cons_eq_ok_iff.1 whole
    rw [Nat.zero_add] at moves
    cases (step_of_moves moves).symm.trans (step_of_stops stops)
  have known : character = Expression.closing → IsKnown character :=
    fun same => .inr (.inr (.inr same))
  obtain ⟨visible, position⟩ := position_of_stops stops
  have kinds := kind_of_stops stops
  rw [opened_eq_nil_iff read] at kinds
  rcases kinds with ⟨unknown, named⟩ | ⟨unmatched, kind⟩ | ⟨⟨isKnown, matched⟩, kind⟩
  · have kind : fault.kind = .unknownSymbol := by rw [Fault.kind, named, FaultCause.kind]
    have noClosing : character ≠ Expression.closing := fun same => unknown (known same)
    exact ⟨position, visible, Expression.isBeginning_iff.2 ⟨reader, read⟩, stuck,
      by simp [kind, unknown], fun _ => named, by simp [kind, noClosing], by simp [kind, unknown]⟩
  · exact ⟨position, visible, Expression.isBeginning_iff.2 ⟨reader, read⟩, stuck,
      by simp [kind, known unmatched.1], by simp [kind], by simp [kind, unmatched],
      by simp [kind, unmatched]⟩
  · exact ⟨position, visible, Expression.isBeginning_iff.2 ⟨reader, read⟩, stuck,
      by simp [kind, isKnown], by simp [kind], by simp [kind, matched],
      by simp [kind, matched, isKnown]⟩

/-- As long as no operand is read, the visible text consists of open parentheses. -/
def StartsWithOpenings (reader : Reader) (text : Text) : Prop :=
  reader.operands.toList = [] →
    reader.expectsOperand = true ∧
      text.compact = List.replicate reader.depth Expression.opening

theorem StartsWithOpenings.move (before : reader.StartsWithOpenings text)
    (moves : reader.Moves text.length character next) :
    next.StartsWithOpenings (text ++ [character]) := by
  intro empty
  cases moves with
  | blank blank =>
      rw [Text.compact_append, Text.compact_cons_of_isBlank blank, Text.compact_nil, List.append_nil]
      exact before empty
  | operand letter => simp at empty
  | opening expects =>
      rw [Text.compact_append, (before empty).2, Text.compact_cons Expression.opening_isPlain.1,
        Text.compact_nil]
      exact ⟨expects, List.replicate_succ'.symm⟩
  | closing opened complete => cases complete.symm.trans (before empty).1
  | operator operator complete => cases complete.symm.trans (before empty).1

/-- A text without operands and open groups has no visible character at all. -/
theorem operands_eq_nil_iff (read : start.run 0 text = .ok reader) (closed : reader.opened = []) :
    reader.operands.toList = [] ↔ text.compact = [] := by
  constructor
  · intro empty
    have openings : reader.StartsWithOpenings text :=
      run_invariant StartsWithOpenings [] StartsWithOpenings.move (fun _ => ⟨rfl, rfl⟩) read
    rw [(openings empty).2, depth, closed]
    rfl
  · intro invisible
    rw [(hasRead_start.run read).operands, List.nil_append, ← text.filter_isLetter_compact, invisible]
    rfl

/-- A reader that lacks something finds the fault of the end. -/
theorem isAtEnd_of_lacks (read : start.run 0 text = .ok reader)
    (lacks : reader.Lacks text.trimmedLength fault) : fault.IsAtEnd text := by
  have incomplete : ¬ ∃ expression, Expression.ofText text = .ok expression := by
    rintro ⟨expression, complete⟩
    rw [Expression.ofText, read] at complete
    cases complete.symm.trans (finish_of_lacks lacks)
  have unmatched (place : Nat) : place ∈ reader.opened ↔ Unmatched text place :=
    (opens_of_run read).mem_iff
  refine ⟨Expression.isBeginning_iff.2 ⟨reader, read⟩, incomplete, ?_, ?_⟩
  · rintro ⟨place, open_⟩
    have member := (unmatched place).2 open_
    cases lacks with
    | @close start outer opened =>
        have first : reader.opened.head? = some start := by rw [opened, List.head?_cons]
        exact ⟨rfl, start, (opens_of_run read).head?_eq_some_iff.1 first, rfl⟩
    | everything closed =>
        rw [closed] at member
        cases member
    | operand closed =>
        rw [closed] at member
        cases member
  · intro matched
    cases lacks with
    | @close start outer opened =>
        have member : start ∈ reader.opened := by simp [opened]
        exact absurd ⟨start, (unmatched start).1 member⟩ matched
    | everything closed expects empty =>
        have invisible := (operands_eq_nil_iff read closed).1 empty
        exact ⟨rfl, fun _ => rfl, fun some => absurd invisible some⟩
    | operand closed expects some =>
        have visible : text.compact ≠ [] := mt (operands_eq_nil_iff read closed).2 some
        refine ⟨rfl, fun none => absurd none visible, fun _ => ?_⟩
        obtain ⟨before, character, blanks, rfl, last, blank⟩ := Text.exists_last_visible visible
        refine ⟨before, character, blanks, rfl, last, blank, ?_⟩
        rw [trimmedLength_of_run read last blank]
        rfl

end Reader

/-- A text that is no expression has a fault at the first character with which no expression begins, or
at its end if it is the beginning of an expression. -/
theorem Expression.isAtCharacter_or_isAtEnd_of_ofText {text : Text} {fault : Fault}
    (failed : ofText text = .error fault) :
    (∃ before character after, text = before ++ character :: after ∧
      fault.IsAtCharacter before character) ∨ fault.IsAtEnd text := by
  unfold ofText at failed
  cases run : Reader.start.run 0 text with
  | error found =>
      rw [run] at failed
      cases failed
      obtain ⟨before, character, after, stopped, same, read, stops⟩ :=
        Reader.exists_stops_of_run run
      rw [Nat.zero_add] at stops
      exact .inl ⟨before, character, after, same, Reader.isAtCharacter_of_stops read stops⟩
  | ok reader =>
      rw [run] at failed
      exact .inr (Reader.isAtEnd_of_lacks run (Reader.finish_eq_error_iff.1 failed))

/-- A parenthesis without a partner is reported before the missing operand in front of it, and an open
group before the missing operand at the end. -/
theorem Expression.isAtCharacter_or_isAtEnd_of_ofText_parentheses :
    (let text := "(A)+ )B".toList
      let fault := Fault.located .unmatchedClose 5
      ofText text = .error fault ∧
        ((∃ before character after, text = before ++ character :: after ∧
          fault.IsAtCharacter before character) ∨ fault.IsAtEnd text)) ∧
      (let text := "((A)+ ".toList
        let fault := Fault.located .unclosedOpen 0
        ofText text = .error fault ∧
          ((∃ before character after, text = before ++ character :: after ∧
            fault.IsAtCharacter before character) ∨ fault.IsAtEnd text)) := by
  have unmatched : ofText "(A)+ )B".toList = .error (Fault.located .unmatchedClose 5) := by rfl
  have unclosed : ofText "((A)+ ".toList = .error (Fault.located .unclosedOpen 0) := by rfl
  exact ⟨⟨unmatched, isAtCharacter_or_isAtEnd_of_ofText unmatched⟩,
    ⟨unclosed, isAtCharacter_or_isAtEnd_of_ofText unclosed⟩⟩

end PolishNotation
