import PolishNotation.Proofs.Grammar.Meaning
import PolishNotation.Proofs.Reader.Stops

namespace PolishNotation

/-- A visible character has one index in the compact text and one place in the text. -/
def Text.IsPlace (text : Text) (index place : Nat) : Prop :=
  ∃ before character after, text = before ++ character :: after ∧ isBlank character = false ∧
    (Text.compact before).length = index ∧ before.length = place

/-- A token of the compact text moves to the place of its operator and keeps everything else. -/
def Token.IsMoved (text : Text) (compacted token : Token) : Prop :=
  ∃ index place : Nat, text.IsPlace index place ∧ compacted.position = index ∧
    token = { compacted with position := place }

/-- The operands stay and the tokens move. -/
def Expression.IsMoved (text : Text) (compacted expression : Expression) : Prop :=
  expression.operands = compacted.operands ∧
    List.Forall₂ (Token.IsMoved text) compacted.tokens expression.tokens

/-- The position of a fault moves with its character. The end of the compact text moves to the end of
the visible part of the text. -/
inductive Fault.MovesPosition (text : Text) : Option Int → Option Int → Prop where
  | unknown : MovesPosition text none none
  | inside {index place : Nat} (isPlace : text.IsPlace index place) :
      MovesPosition text (some (index : Int)) (some (place : Int))
  | atEnd {index place : Nat} (isPlace : text.IsPlace index place)
      (last : text.compact.length = index + 1) :
      MovesPosition text (some ((index + 1 : Nat) : Int)) (some ((place + 1 : Nat) : Int))

/-- A moved fault has the same cause, and so the same kind and the same description. -/
def Fault.IsMoved (text : Text) (compacted fault : Fault) : Prop :=
  fault.cause = compacted.cause ∧ Fault.MovesPosition text compacted.position fault.position

/-- Two results correspond if both are values or both are faults, and these are related. -/
inductive Corresponds {First Second : Type} (values : First → Second → Prop)
    (faults : Fault → Fault → Prop) : Except Fault First → Except Fault Second → Prop where
  | ok {first : First} {second : Second} (related : values first second) :
      Corresponds values faults (.ok first) (.ok second)
  | error {first second : Fault} (related : faults first second) :
      Corresponds values faults (.error first) (.error second)

namespace Text.IsPlace

variable {text : Text} {index place : Nat}

theorem append (isPlace : text.IsPlace index place) (rest : Text) :
    (text ++ rest).IsPlace index place := by
  obtain ⟨before, character, after, rfl, visible, first, second⟩ := isPlace
  exact ⟨before, character, after ++ rest, by simp, visible, first, second⟩

/-- A further visible character stands at both ends. -/
theorem last {character : Char} (visible : isBlank character = false) (text : Text) :
    (text ++ [character]).IsPlace text.compact.length text.length :=
  ⟨text, character, [], rfl, visible, rfl, rfl⟩

/-- The same character stands at both indices. -/
theorem getElem?_eq (isPlace : text.IsPlace index place) : text[place]? = text.compact[index]? := by
  obtain ⟨before, character, after, rfl, visible, rfl, rfl⟩ := isPlace
  simp [compact_append, compact_cons visible]

/-- Every index of the compact text has a place. -/
theorem exists_of_lt (inside : index < text.compact.length) : ∃ place, text.IsPlace index place := by
  induction text using List.reverseRecOn with
  | nil => cases inside
  | append_singleton before character ih =>
      by_cases early : index < (compact before).length
      · obtain ⟨place, isPlace⟩ := ih early
        exact ⟨place, isPlace.append _⟩
      · cases visible : isBlank character with
        | true =>
            rw [compact_append, compact_cons_of_isBlank visible, compact_nil, List.append_nil]
              at inside
            exact absurd inside early
        | false =>
            rw [compact_append, compact_cons visible, compact_nil, List.length_append,
              List.length_singleton] at inside
            have same : index = (compact before).length := by omega
            exact ⟨before.length, same ▸ .last visible before⟩

theorem lt_of_lt {other otherPlace : Nat} (one : text.IsPlace index place)
    (second : text.IsPlace other otherPlace) (earlier : place < otherPlace) : index < other := by
  obtain ⟨before, character, after, rfl, visible, rfl, rfl⟩ := one
  obtain ⟨front, next, back, same, -, rfl, rfl⟩ := second
  rcases append_eq_append_cons_iff.1 same with ⟨middle, rfl, -⟩ | ⟨middle, rfl, rest⟩
  · rw [List.length_append] at earlier
    omega
  · rcases List.cons_eq_append_iff.1 rest with ⟨rfl, -⟩ | ⟨middle, rfl, -⟩
    · simp at earlier
    · rw [compact_append, compact_cons visible, List.length_append, List.length_cons]
      omega

/-- The places grow with the indices. -/
theorem lt_iff {other otherPlace : Nat} (one : text.IsPlace index place)
    (second : text.IsPlace other otherPlace) : index < other ↔ place < otherPlace := by
  refine ⟨fun lower => ?_, one.lt_of_lt second⟩
  rcases Nat.lt_trichotomy place otherPlace with earlier | rfl | later
  · exact earlier
  · obtain ⟨before, character, after, rfl, -, rfl, rfl⟩ := one
    obtain ⟨front, next, back, same, -, rfl, length⟩ := second
    obtain ⟨rfl, -⟩ := List.append_inj same length.symm
    exact absurd lower (Nat.lt_irrefl _)
  · have upper := second.lt_of_lt one later
    omega

end Text.IsPlace

theorem Token.IsMoved.append {text : Text} {compacted token : Token}
    (moved : compacted.IsMoved text token) (rest : Text) :
    compacted.IsMoved (text ++ rest) token := by
  obtain ⟨index, place, isPlace, positions⟩ := moved
  exact ⟨index, place, isPlace.append rest, positions⟩

namespace Reader

/-- A reader of a text mirrors a reader of the compact text if it differs in positions only. -/
structure Mirrors (text : Text) (compacted reader : Reader) : Prop where
  operands : reader.operands = compacted.operands
  tokens : List.Forall₂ (Token.IsMoved text) compacted.tokens.toList reader.tokens.toList
  opened : List.Forall₂ text.IsPlace compacted.opened reader.opened
  expectsOperand : reader.expectsOperand = compacted.expectsOperand

namespace Mirrors

variable {text : Text} {compacted reader next : Reader} {character : Char} {fault : Fault}

theorem append (mirrors : Mirrors text compacted reader) (rest : Text) :
    Mirrors (text ++ rest) compacted reader where
  operands := mirrors.operands
  tokens := mirrors.tokens.imp fun _ _ moved => moved.append rest
  opened := mirrors.opened.imp fun _ _ isPlace => isPlace.append rest
  expectsOperand := mirrors.expectsOperand

theorem depth_eq (mirrors : Mirrors text compacted reader) : reader.depth = compacted.depth :=
  mirrors.opened.length_eq.symm

/-- A move over a visible character is a move of both readers. -/
theorem move (mirrors : Mirrors text compacted reader) (visible : isBlank character = false)
    (moves : reader.Moves text.length character next) :
    ∃ compactedNext, compacted.Moves text.compact.length character compactedNext ∧
      Mirrors (text ++ [character]) compactedNext next := by
  obtain ⟨operands, tokens, opened, expectsOperand⟩ := mirrors.append [character]
  have isPlace := Text.IsPlace.last visible text
  cases moves with
  | blank blank => cases visible.symm.trans blank
  | operand letter expects =>
      refine ⟨_, .operand letter (expectsOperand ▸ expects), ?_, tokens, opened, rfl⟩
      rw [operands]
  | opening expects =>
      exact ⟨_, .opening (expectsOperand ▸ expects), operands, tokens, .cons isPlace opened,
        expectsOperand⟩
  | @closing start outer startsWith complete =>
      rw [startsWith] at opened
      obtain ⟨compactedStart, compactedOuter, -, outerPlaces, same⟩ :=
        List.forall₂_cons_right_iff.1 opened
      exact ⟨_, .closing same (expectsOperand ▸ complete), operands, tokens, outerPlaces,
        expectsOperand⟩
  | operator operator complete =>
      refine ⟨_, .operator operator (expectsOperand ▸ complete), operands, ?_, opened, rfl⟩
      have moved : Token.IsMoved (text ++ [operator.symbol])
          (.ofOperator operator compacted.depth text.compact.length)
          (.ofOperator operator reader.depth text.length) :=
        ⟨_, _, isPlace, rfl, by rw [mirrors.depth_eq]; rfl⟩
      rw [Array.toList_push, Array.toList_push]
      exact List.rel_append tokens (.cons moved .nil)

/-- A stop at a character is a stop of both readers with the same cause. -/
theorem stop (mirrors : Mirrors text compacted reader)
    (stops : reader.Stops text.length character fault) :
    compacted.Stops text.compact.length character ⟨fault.cause, some text.compact.length⟩ := by
  have opened := mirrors.opened
  have expectsOperand := mirrors.expectsOperand
  cases stops with
  | unknown visible unknown => exact .unknown visible unknown
  | operand letter complete => exact .operand letter (expectsOperand ▸ complete)
  | opening complete => exact .opening (expectsOperand ▸ complete)
  | unmatched closed =>
      rw [closed] at opened
      exact .unmatched (List.forall₂_nil_right_iff.1 opened)
  | closing some expects =>
      refine .closing (fun none => some ?_) (expectsOperand ▸ expects)
      rw [none] at opened
      exact List.forall₂_nil_left_iff.1 opened
  | operator operator expects => exact .operator operator (expectsOperand ▸ expects)

/-- Both readers come to the end of their texts or find the same cause at the same character. -/
theorem run (mirrors : Mirrors text compacted reader) (rest : Text) :
    Corresponds (Mirrors (text ++ rest)) (Fault.IsMoved (text ++ rest))
      (compacted.run text.compact.length rest.compact) (reader.run text.length rest) := by
  induction rest generalizing text compacted reader with
  | nil =>
      rw [List.append_nil]
      exact .ok mirrors
  | cons character rest ih =>
      have length : (text ++ [character]).length = text.length + 1 := by simp
      rw [List.append_cons, run_cons, ← length]
      cases visible : isBlank character with
      | true =>
          have compact : (text ++ [character]).compact = text.compact := by
            rw [Text.compact_append, Text.compact_cons_of_isBlank visible, Text.compact_nil,
              List.append_nil]
          rw [Text.compact_cons_of_isBlank visible, step_blank reader _ visible, ← compact]
          exact ih (mirrors.append [character])
      | false =>
          have compact : (text ++ [character]).compact.length = text.compact.length + 1 := by
            simp [Text.compact_append, Text.compact_cons visible, Text.compact_nil]
          rw [Text.compact_cons visible, run_cons, ← compact]
          rcases reader.exists_moves_or_stops text.length character with
            ⟨next, moves⟩ | ⟨fault, stops⟩
          · obtain ⟨compactedNext, compactedMoves, nextMirrors⟩ := mirrors.move visible moves
            rw [step_of_moves moves, step_of_moves compactedMoves]
            exact ih nextMirrors
          · rw [step_of_stops stops, step_of_stops (mirrors.stop stops)]
            have isPlace := (Text.IsPlace.last visible text).append rest
            refine .error ⟨rfl, ?_⟩
            rw [(position_of_stops stops).2]
            exact .inside isPlace

/-- Both readers lack the same at the end of their texts or nothing. -/
theorem finish {position compactedPosition : Nat} {start compactedStart : Reader}
    (mirrors : Mirrors text compacted reader) (read : start.run position text = .ok reader)
    (compactedRead : compactedStart.run compactedPosition text.compact = .ok compacted)
    (hasRead : reader.HasRead text) :
    Corresponds (Expression.IsMoved text) (Fault.IsMoved text)
      (compacted.finish text.compact.trimmedLength) (reader.finish text.trimmedLength) := by
  obtain ⟨operands, tokens, opened, expectsOperand⟩ := mirrors
  cases finished : reader.finish text.trimmedLength with
  | ok expression =>
      obtain ⟨closed, complete, rfl⟩ := finish_eq_ok_iff.1 finished
      rw [closed] at opened
      rw [finish_eq_ok_iff.2 ⟨List.forall₂_nil_right_iff.1 opened, expectsOperand ▸ complete, rfl⟩]
      exact .ok ⟨congrArg Array.toList operands, tokens⟩
  | error fault =>
      cases finish_eq_error_iff.1 finished with
      | @close start outer startsWith =>
          rw [startsWith] at opened
          obtain ⟨compactedStart, compactedOuter, isPlace, -, same⟩ :=
            List.forall₂_cons_right_iff.1 opened
          rw [finish_of_lacks (.close same)]
          exact .error ⟨rfl, .inside isPlace⟩
      | everything closed expects empty =>
          rw [closed] at opened
          rw [finish_of_lacks (.everything (List.forall₂_nil_right_iff.1 opened)
            (expectsOperand ▸ expects) (operands ▸ empty))]
          exact .error ⟨rfl, .unknown⟩
      | operand closed expects some =>
          rw [closed] at opened
          rw [finish_of_lacks (.operand (List.forall₂_nil_right_iff.1 opened)
            (expectsOperand ▸ expects) (operands ▸ some))]
          have visible : text.compact ≠ [] := by
            intro invisible
            rw [hasRead.operands, ← text.filter_isLetter_compact, invisible] at some
            exact some rfl
          obtain ⟨before, last, blanks, rfl, lastVisible, blank⟩ :=
            Text.exists_last_visible visible
          have compact : Text.compact (before ++ last :: blanks) =
              Text.compact before ++ last :: [] := by
            rw [Text.compact_append, Text.compact_cons lastVisible, blank]
          rw [trimmedLength_of_run read lastVisible blank]
          rw [compact] at compactedRead ⊢
          rw [trimmedLength_of_run compactedRead lastVisible rfl]
          exact .error ⟨rfl, .atEnd ⟨before, last, blanks, rfl, lastVisible, rfl, rfl⟩
            (by simp [compact])⟩

end Mirrors

end Reader

/-- Blank characters change nothing but the positions of the tokens or of the fault. -/
theorem Expression.corresponds_ofText_compact (text : Text) :
    Corresponds (IsMoved text) (Fault.IsMoved text) (ofText text.compact) (ofText text) := by
  have start : Reader.Mirrors [] .start .start := ⟨rfl, .nil, .nil, rfl⟩
  have runs : Corresponds (Reader.Mirrors text) (Fault.IsMoved text)
      (Reader.start.run 0 text.compact) (Reader.start.run 0 text) := start.run text
  rw [ofText, ofText]
  generalize compactedRun : Reader.start.run 0 text.compact = compactedResult at runs
  generalize run : Reader.start.run 0 text = result at runs
  cases runs with
  | error related => exact .error related
  | ok mirrors => exact mirrors.finish run compactedRun (Reader.hasRead_start.run run)

/-- Blank characters never show in what a text is converted to. -/
theorem corresponds_toPostfix_compact (text : Text) :
    Corresponds (· = ·) (Fault.IsMoved text) (toPostfix text.compact) (toPostfix text) := by
  have reads := Expression.corresponds_ofText_compact text
  generalize compactedRead : Expression.ofText text.compact = compactedResult at reads
  generalize read : Expression.ofText text = result at reads
  cases reads with
  | error related =>
      rw [toPostfix, toPostfix, Conversion.ofText_eq, Conversion.ofText_eq, compactedRead, read]
      exact .error related
  | ok related =>
      obtain ⟨conversion, converted⟩ := Conversion.exists_ofText read
      have output := Conversion.toPostfix_of_ofText converted
      -- A text and its compact text mean the same term, as a meaning is one of the compact text.
      obtain ⟨term, means, same⟩ := toPostfix_eq_ok_iff.1 output
      have compactedMeans : Grammar.Means text.compact term := by
        rwa [Grammar.Means, Text.compact_compact]
      rw [output, toPostfix_of_means compactedMeans, same]
      exact .ok rfl

/-- Every visible character has its place, the places grow with the indices, and blank characters
change nothing but positions, which move to these places. -/
theorem Text.corresponds_compact (text : Text) :
    (∀ index < text.compact.length,
      ∃ place, text.IsPlace index place ∧ text[place]? = text.compact[index]?) ∧
      (∀ index place other otherPlace, text.IsPlace index place → text.IsPlace other otherPlace →
        (index < other ↔ place < otherPlace)) ∧
      Corresponds (Expression.IsMoved text) (Fault.IsMoved text)
        (Expression.ofText text.compact) (Expression.ofText text) ∧
      Corresponds (· = ·) (Fault.IsMoved text) (toPostfix text.compact) (toPostfix text) := by
  refine ⟨fun index inside => ?_, fun _ _ _ _ one second => one.lt_iff second,
    Expression.corresponds_ofText_compact text, corresponds_toPostfix_compact text⟩
  obtain ⟨place, isPlace⟩ := Text.IsPlace.exists_of_lt inside
  exact ⟨place, isPlace, isPlace.getElem?_eq⟩

/-- The end of a text moves to the end of its visible part. -/
theorem Text.corresponds_compact_missing :
    let text : Text := "A\u2003+ \u3000".toList
    text.compact = "A+".toList ∧ text.IsPlace 1 2 ∧
      Expression.ofText text.compact = .error (.located .missingLastOperand 2) ∧
      Expression.ofText text = .error (.located .missingLastOperand 3) ∧
      (∃ place, text.IsPlace 0 place ∧ text[place]? = text.compact[0]?) ∧
      Corresponds (Expression.IsMoved text) (Fault.IsMoved text)
        (Expression.ofText text.compact) (Expression.ofText text) := by
  obtain ⟨places, -, reads, -⟩ := Text.corresponds_compact "A\u2003+ \u3000".toList
  exact ⟨rfl, ⟨"A\u2003".toList, '+', " \u3000".toList, rfl, rfl, rfl, rfl⟩, rfl, rfl,
    places 0 (by decide), reads⟩

end PolishNotation
