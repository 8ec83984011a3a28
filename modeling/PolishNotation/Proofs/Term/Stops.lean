import PolishNotation.Proofs.Term.Stack

namespace PolishNotation

namespace Grammar

/-- A character stops the reading if it is an operator with a balance below two in front of it, or
neither an operator nor a letter. -/
def StopsAt (text : Text) (index : Nat) : Prop :=
  (∃ operator : Operator, text[index]? = some operator.symbol ∧ balance (text.take index) < 2) ∨
    ∃ character, text[index]? = some character ∧ Operator.ofSymbol? character = none ∧
      isLetter character = false

/-- The reading stops at the first character that it can stop at. -/
def StopsFirstAt (text : Text) (index : Nat) : Prop :=
  StopsAt text index ∧ ∀ earlier < index, ¬ StopsAt text earlier

/-- A fault and its message name the first character that stops the reading, its index and, for an
operator, the balance in front of it. If no character stops the reading they list the texts that are
left, which are as many as the balance of the whole text says. -/
inductive Refuses (text : Text) : StackFault → Text → Prop where
  | underflow {operator : Operator} {index available : Nat} (first : StopsFirstAt text index)
      (found : text[index]? = some operator.symbol)
      (balanced : balance (text.take index) = available) :
      Refuses text (.underflow operator index available)
        ("Stack underflow for operator '".toList ++ [operator.symbol] ++ "' at token ".toList ++
          decimal index ++ ". Need 2, have ".toList ++ decimal (balance (text.take index)) ++
            ".".toList)
  | unknownToken {character : Char} {index : Nat} (first : StopsFirstAt text index)
      (found : text[index]? = some character) (noOperator : Operator.ofSymbol? character = none) :
      Refuses text (.unknownToken character index)
        ("Invalid or unknown token: '".toList ++ [character] ++ "' at position ".toList ++
          decimal index ++ ".".toList)
  | leftover {leftovers : List Text} (endless : ∀ index, ¬ StopsAt text index)
      (balanced : balance text = leftovers.length) (wrong : balance text ≠ 1) :
      Refuses text (.leftover leftovers)
        ("Stack must have exactly 1 value at the end, but has ".toList ++ decimal (balance text) ++
          ". Leftovers: ".toList ++ Text.listed (leftovers.map Text.quoted))

theorem balance_append (first second : Text) :
    balance (first ++ second) = balance first + balance second := by
  simp only [balance, List.countP_append]
  omega

theorem balance_letter {character : Char} (letter : isLetter character = true) :
    balance [character] = 1 := by
  simp [balance, letter, ofSymbol?_of_isLetter letter]

theorem balance_symbol (operator : Operator) : balance [operator.symbol] = -1 := by
  cases operator <;> decide

end Grammar

namespace Term

open Grammar (balance balance_append balance_letter balance_symbol StopsAt StopsFirstAt Refuses)

variable {stack next : List Term} {text before rest : Text} {character : Char}

/-- One character changes the number of terms by its balance. -/
theorem length_of_pushes (pushes : Pushes stack character next) :
    (next.length : Int) = stack.length + balance [character] := by
  cases pushes with
  | operand letter =>
      rw [balance_letter letter, List.length_cons]
      omega
  | operator operator ready =>
      rw [balance_symbol, ready]
      simp only [List.length_cons]
      omega

/-- A character that is not read is an operator without two terms in front of it, or it is
unknown. -/
inductive Blocks (stack : List Term) (index : Nat) : Char → StackFault → Prop where
  | operator (operator : Operator) (few : stack.length < 2) :
      Blocks stack index operator.symbol (.underflow operator index stack.length)
  | unknown {character : Char} (noOperator : Operator.ofSymbol? character = none)
      (noLetter : isLetter character = false) :
      Blocks stack index character (.unknownToken character index)

theorem blocks_of_pushToken {index : Nat} {fault : StackFault}
    (failed : pushToken stack index character = .error fault) :
    Blocks stack index character fault := by
  unfold pushToken at failed
  split at failed
  · rename_i operator found
    rw [Operator.ofSymbol?_eq_some_iff.1 found]
    match stack, failed with
    | [], failed =>
        cases failed
        exact .operator operator (by simp)
    | [term], failed =>
        cases failed
        exact .operator operator (by simp)
  · rename_i noOperator
    split at failed
    · cases failed
    · cases failed
      exact .unknown noOperator (by simpa using ‹¬ isLetter character = true›)

/-- The stack holds what was read without a stop: its terms are as many as the balance says. -/
structure HasRead (text before : Text) (stack : List Term) : Prop where
  balanced : balance before = stack.length
  unstopped : ∀ index < before.length, ¬ StopsAt text index

namespace HasRead

theorem start (text : Text) : HasRead text [] [] :=
  ⟨rfl, fun _ inside => absurd inside (Nat.not_lt_zero _)⟩

/-- A character that is read does not stop the reading. -/
theorem not_stopsAt_length (hasRead : HasRead text before stack)
    (whole : text = before ++ character :: rest) (pushes : Pushes stack character next) :
    ¬ StopsAt text before.length := by
  have found : text[before.length]? = some character := by simp [whole]
  have taken : text.take before.length = before := by simp [whole]
  rw [StopsAt, found, taken, hasRead.balanced]
  cases pushes with
  | operand letter =>
      rintro (⟨operator, same, -⟩ | ⟨other, same, -, noLetter⟩)
      · rw [Option.some.inj same] at letter
        simp [operator.symbol_isPlain] at letter
      · cases same
        simp [letter] at noLetter
  | operator operator ready =>
      rintro (⟨other, -, few⟩ | ⟨other, same, noOperator, -⟩)
      · rw [ready] at few
        simp only [List.length_cons] at few
        omega
      · cases same
        simp [Operator.ofSymbol?_symbol] at noOperator

theorem push (hasRead : HasRead text before stack) (whole : text = before ++ character :: rest)
    (pushes : Pushes stack character next) : HasRead text (before ++ [character]) next := by
  refine ⟨?_, fun index inside => ?_⟩
  · rw [balance_append, hasRead.balanced, length_of_pushes pushes]
  · rw [List.length_append, List.length_singleton] at inside
    by_cases last : index = before.length
    · rw [last]
      exact hasRead.not_stopsAt_length whole pushes
    · exact hasRead.unstopped index (by omega)

/-- A character that is not read is the first one to stop the reading. -/
theorem refuses (hasRead : HasRead text before stack) (whole : text = before ++ character :: rest)
    {fault : StackFault} (blocks : Blocks stack before.length character fault) :
    Refuses text fault fault.message := by
  have found : text[before.length]? = some character := by simp [whole]
  have taken : text.take before.length = before := by simp [whole]
  cases blocks with
  | operator operator few =>
      have stops : StopsAt text before.length :=
        .inl ⟨operator, found, by rw [taken, hasRead.balanced]; omega⟩
      have balanced : balance (text.take before.length) = stack.length := by
        rw [taken, hasRead.balanced]
      have reason := Refuses.underflow ⟨stops, hasRead.unstopped⟩ found balanced
      rw [balanced] at reason
      exact reason
  | unknown noOperator noLetter =>
      have stops : StopsAt text before.length := .inr ⟨character, found, noOperator, noLetter⟩
      exact .unknownToken ⟨stops, hasRead.unstopped⟩ found noOperator

/-- The rest is read to its end, or its first stop is reported. -/
theorem pushAll (hasRead : HasRead text before stack) (whole : text = before ++ rest) :
    match Term.pushAll stack before.length rest with
    | .ok last => HasRead text text last
    | .error fault => Refuses text fault fault.message := by
  induction rest generalizing before stack with
  | nil =>
      rw [List.append_nil] at whole
      rw [pushAll_nil]
      exact whole ▸ hasRead
  | cons character rest ih =>
      rw [pushAll_cons]
      cases pushed : pushToken stack before.length character with
      | error fault => exact hasRead.refuses whole (blocks_of_pushToken pushed)
      | ok next =>
          have continued := ih (hasRead.push whole (pushes_of_pushToken pushed)) (by simp [whole])
          rwa [List.length_append, List.length_singleton] at continued

/-- Behind the end of the text nothing stops the reading. -/
theorem not_stopsAt (hasRead : HasRead text text stack) (index : Nat) : ¬ StopsAt text index := by
  by_cases inside : index < text.length
  · exact hasRead.unstopped index inside
  · have ends : text[index]? = none := List.getElem?_eq_none (by omega)
    simp [StopsAt, ends]

end HasRead

/-- A text that is not read as one term is refused for the reason that its fault names. -/
theorem refuses_of_ofPostfix {fault : StackFault} (failed : ofPostfix text = .error fault) :
    Refuses text.compact fault fault.message := by
  have whole : text.compact = [] ++ text.compact := rfl
  have read := (HasRead.start text.compact).pushAll whole
  rw [List.length_nil] at read
  rcases pushAll_of_ofPostfix_error failed with stopped | ⟨stack, pushed, several, rfl⟩
  · rwa [stopped] at read
  · rw [pushed] at read
    have balanced : balance text.compact = (stack.reverse.map written).length := by
      rw [read.balanced, List.length_map, List.length_reverse]
    have wrong : balance text.compact ≠ 1 := by
      rw [read.balanced]
      intro single
      exact several (Int.ofNat.inj single)
    have reason := Refuses.leftover read.not_stopsAt balanced wrong
    rw [balanced] at reason
    exact reason

end Term

/-- A text can be converted exactly if it is a word without its blank characters. -/
theorem exists_toInfix_iff {text : Text} :
    (∃ output, toInfix text = .ok output) ↔ Grammar.Word text.compact := by
  constructor
  · rintro ⟨output, converted⟩
    cases read : Term.ofPostfix text with
    | error fault =>
        rw [toInfix_eq, read] at converted
        cases converted
    | ok term =>
        obtain ⟨letters, spells⟩ := Term.postorder_of_ofPostfix read
        exact spells ▸ .postorder letters
  · intro word
    obtain ⟨term, letters, spells⟩ := word.exists_term
    have read : Term.ofPostfix text = .ok term := by
      rw [Term.ofPostfix_eq_ok_iff, ← spells]
      exact Term.pushAll_postorder letters [] 0
    exact ⟨term.written, by rw [toInfix_eq, read]; rfl⟩

/-- A text is converted exactly if it is a word without its blank characters. Any other text is
refused with a message that names its first character that stops the reading, or the number of texts
that are left if there is none. -/
theorem toInfix_iff_word_or_refuses (text : Text) :
    ((∃ output, toInfix text = .ok output) ↔ Grammar.Word text.compact) ∧
      (¬ Grammar.Word text.compact →
        ∃ fault, toInfix text = .error fault ∧
          Grammar.Refuses text.compact fault fault.message) := by
  refine ⟨exists_toInfix_iff, fun noWord => ?_⟩
  cases read : Term.ofPostfix text with
  | error fault => exact ⟨fault, by rw [toInfix_eq, read]; rfl, Term.refuses_of_ofPostfix read⟩
  | ok term =>
      have converted : toInfix text = .ok term.written := by rw [toInfix_eq, read]; rfl
      exact absurd (exists_toInfix_iff.1 ⟨_, converted⟩) noWord

/-- The index of a fault counts the visible characters only. -/
theorem toInfix_iff_word_or_refuses_unknown :
    ¬ Grammar.Word "AB?+".toList ∧ toInfix "A B ?+".toList = .error (.unknownToken '?' 2) ∧
      Grammar.Refuses "AB?+".toList (.unknownToken '?' 2)
        "Invalid or unknown token: '?' at position 2.".toList := by
  have visible : Text.compact "A B ?+".toList = "AB?+".toList := by decide
  have failed : toInfix "A B ?+".toList = .error (.unknownToken '?' 2) := by decide
  obtain ⟨converts, refuses⟩ := toInfix_iff_word_or_refuses "A B ?+".toList
  rw [visible] at converts refuses
  have noWord : ¬ Grammar.Word "AB?+".toList := by
    rw [← converts, failed]
    simp
  obtain ⟨fault, same, reason⟩ := refuses noWord
  rw [failed] at same
  cases same
  have message : (StackFault.unknownToken '?' 2).message =
      "Invalid or unknown token: '?' at position 2.".toList := by decide
  rw [message] at reason
  exact ⟨noWord, failed, reason⟩

end PolishNotation
