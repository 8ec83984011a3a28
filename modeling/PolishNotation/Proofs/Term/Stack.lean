import PolishNotation.Grammar
import PolishNotation.Proofs.Character

namespace PolishNotation

namespace Term

/-- One character puts an operand on the stack or joins the last two terms. -/
inductive Pushes (stack : List Term) : Char → List Term → Prop where
  | operand {character : Char} (letter : isLetter character = true) :
      Pushes stack character (.operand character :: stack)
  | operator {left right : Term} {below : List Term} (operator : Operator)
      (ready : stack = right :: left :: below) :
      Pushes stack operator.symbol (.binary operator left right :: below)

variable {stack next last : List Term} {index : Nat} {character : Char}

theorem pushToken_of_pushes (pushes : Pushes stack character next) :
    pushToken stack index character = .ok next := by
  cases pushes with
  | operand letter => simp [pushToken, ofSymbol?_of_isLetter letter, letter]
  | operator operator ready => simp [pushToken, Operator.ofSymbol?_symbol, ready, joinLast]

theorem pushes_of_pushToken (pushed : pushToken stack index character = .ok next) :
    Pushes stack character next := by
  unfold pushToken at pushed
  split at pushed
  · rename_i operator found
    rw [Operator.ofSymbol?_eq_some_iff.1 found]
    unfold joinLast at pushed
    split at pushed
    · cases pushed
      exact .operator operator rfl
    · cases pushed
  · split at pushed
    · cases pushed
      exact .operand ‹_›
    · cases pushed

/-- The pushes are the steps that find no fault. -/
theorem pushToken_eq_ok_iff :
    pushToken stack index character = .ok next ↔ Pushes stack character next :=
  ⟨pushes_of_pushToken, pushToken_of_pushes⟩

theorem pushAll_cons_eq_ok_iff {rest : Text} :
    pushAll stack index (character :: rest) = .ok last ↔
      ∃ next, Pushes stack character next ∧ pushAll next (index + 1) rest = .ok last := by
  have same (next : List Term) : Pushes stack character next ↔
      pushToken stack index character = .ok next := pushToken_eq_ok_iff.symm
  rw [pushAll_cons]
  simp only [same]
  cases pushToken stack index character with
  | error fault => simp [Except.bind]
  | ok next => simp [Except.bind]

/-- The texts of the terms follow each other from the lowest term to the last one. -/
def spelled (stack : List Term) : Text :=
  stack.reverse.flatMap Term.postorder

theorem spelled_cons (term : Term) (stack : List Term) :
    spelled (term :: stack) = spelled stack ++ term.postorder := by
  simp [spelled]

theorem spelled_of_pushes (pushes : Pushes stack character next) :
    spelled next = spelled stack ++ [character] := by
  cases pushes with
  | operand letter => exact spelled_cons _ _
  | operator operator ready =>
      rw [ready, spelled_cons, spelled_cons, spelled_cons, postorder]
      simp only [List.append_assoc]

theorem lettered_of_pushes (pushes : Pushes stack character next)
    (lettered : ∀ term ∈ stack, Grammar.Lettered term) :
    ∀ term ∈ next, Grammar.Lettered term := by
  cases pushes with
  | operand letter => exact List.forall_mem_cons.2 ⟨letter, lettered⟩
  | operator operator ready =>
      rw [ready] at lettered
      obtain ⟨rightLettered, rest⟩ := List.forall_mem_cons.1 lettered
      obtain ⟨leftLettered, below⟩ := List.forall_mem_cons.1 rest
      exact List.forall_mem_cons.2 ⟨⟨leftLettered, rightLettered⟩, below⟩

/-- The stack spells everything that was read onto it. -/
theorem spelled_of_pushAll {text : Text} (pushed : pushAll stack index text = .ok last) :
    spelled last = spelled stack ++ text := by
  induction text generalizing stack index with
  | nil =>
      cases pushed
      rw [List.append_nil]
  | cons character rest ih =>
      obtain ⟨next, pushes, pushed⟩ := pushAll_cons_eq_ok_iff.1 pushed
      rw [ih pushed, spelled_of_pushes pushes, List.append_assoc]
      rfl

theorem lettered_of_pushAll {text : Text} (pushed : pushAll stack index text = .ok last)
    (lettered : ∀ term ∈ stack, Grammar.Lettered term) :
    ∀ term ∈ last, Grammar.Lettered term := by
  induction text generalizing stack index with
  | nil =>
      cases pushed
      exact lettered
  | cons character rest ih =>
      obtain ⟨next, pushes, pushed⟩ := pushAll_cons_eq_ok_iff.1 pushed
      exact ih pushed (lettered_of_pushes pushes lettered)

theorem ofPostfix_eq_ok_iff {text : Text} {term : Term} :
    ofPostfix text = .ok term ↔ pushAll [] 0 text.compact = .ok [term] := by
  unfold ofPostfix
  split
  · simp [*]
  · simp [*]
  · rename_i stack many pushed
    rw [pushed]
    constructor
    · intro impossible
      cases impossible
    · intro same
      exact absurd (Except.ok.inj same) (many term)

/-- A text is no term if a character cannot be read or if the stack does not end with exactly one
term. -/
theorem pushAll_of_ofPostfix_error {text : Text} {fault : StackFault}
    (failed : ofPostfix text = .error fault) :
    pushAll [] 0 text.compact = .error fault ∨ ∃ stack,
      pushAll [] 0 text.compact = .ok stack ∧ stack.length ≠ 1 ∧
        fault = .leftover (stack.reverse.map written) := by
  unfold ofPostfix at failed
  split at failed
  · rename_i found stopped
    cases failed
    exact .inl stopped
  · cases failed
  · rename_i stack several pushed
    cases failed
    refine .inr ⟨stack, pushed, fun single => ?_, rfl⟩
    obtain ⟨term, rfl⟩ := List.length_eq_one_iff.1 single
    exact several term rfl

/-- The term that is read has letters for operands and spells the text. -/
theorem postorder_of_ofPostfix {text : Text} {term : Term} (read : ofPostfix text = .ok term) :
    Grammar.Lettered term ∧ term.postorder = text.compact := by
  have pushed := ofPostfix_eq_ok_iff.1 read
  have lettered := lettered_of_pushAll pushed nofun
  have spells := spelled_of_pushAll pushed
  rw [spelled_cons] at spells
  exact ⟨lettered term List.mem_cons_self, spells⟩

variable {term : Term}

/-- Reading the text of a term puts the term on the stack. -/
theorem pushAll_postorder (letters : Grammar.Lettered term) (stack : List Term) (index : Nat) :
    pushAll stack index term.postorder = .ok (term :: stack) := by
  induction term generalizing stack index with
  | operand character =>
      exact pushAll_cons_eq_ok_iff.2 ⟨_, .operand letters, rfl⟩
  | binary operator left right leftStep rightStep =>
      rw [postorder, pushAll_append, pushAll_append, leftStep letters.1]
      simp only [Except.bind, rightStep letters.2]
      exact pushAll_cons_eq_ok_iff.2 ⟨_, .operator operator rfl, rfl⟩

/-- The text of a term has no blank characters. -/
theorem compact_postorder (letters : Grammar.Lettered term) :
    term.postorder.compact = term.postorder := by
  induction term with
  | operand character => exact Text.compact_cons (isBlank_of_isLetter letters) []
  | binary operator left right leftStep rightStep =>
      rw [postorder, Text.compact_append, Text.compact_append, leftStep letters.1,
        rightStep letters.2, Text.compact_cons operator.symbol_isPlain.1, Text.compact_nil]

theorem ofPostfix_postorder (letters : Grammar.Lettered term) :
    ofPostfix term.postorder = .ok term := by
  rw [ofPostfix_eq_ok_iff, compact_postorder letters]
  exact pushAll_postorder letters [] 0

/-- Different terms have different texts. -/
theorem postorder_injective {first second : Term} (firstLetters : Grammar.Lettered first)
    (secondLetters : Grammar.Lettered second) (same : first.postorder = second.postorder) :
    first = second := by
  have read := ofPostfix_postorder firstLetters
  rw [same, ofPostfix_postorder secondLetters] at read
  exact (Except.ok.inj read).symm

/-- The text of a term is converted to the written term. -/
theorem toInfix_postorder (letters : Grammar.Lettered term) :
    toInfix term.postorder = .ok term.written := by
  rw [toInfix_eq, ofPostfix_postorder letters]
  rfl

end Term

end PolishNotation
