import PolishNotation.Proofs.Grammar.Parentheses

namespace PolishNotation

namespace Grammar

variable {depth : Int} {operator? : Option Operator} {token? : Option Token}

/-- The token next to a place belongs to the operator next to it, if there is one, and else stands
outside of the place. -/
def IsNextTo (depth : Int) (operator? : Option Operator) (token? : Option Token) : Prop :=
  match operator? with
  | some operator => token? = some (.ofOperator operator depth Token.unknownPosition)
  | none => ∀ token ∈ token?, token.depth < depth

theorem IsNextTo.depth_le (next : IsNextTo depth operator? token?) :
    ∀ token ∈ token?, token.depth ≤ depth := by
  intro token member
  cases operator? with
  | some operator =>
      cases Option.some.inj (member.symm.trans next)
      exact Int.le_refl depth
  | none => exact Int.le_of_lt (next token member)

/-- A property of the token next to a place that everything outside of the place has is a property
of the operator next to it. -/
theorem IsNextTo.forall_iff (next : IsNextTo depth operator? token?) {property : Token → Prop}
    (outside : ∀ token : Token, token.depth < depth → property token) :
    (∀ token ∈ token?, property token) ↔
      ∀ operator, operator? = some operator →
        property (.ofOperator operator depth Token.unknownPosition) := by
  cases operator? with
  | some operator =>
      have same : token? = _ := next
      simp [same]
  | none => simpa using fun token member => outside token (next token member)

variable {before after : Text} {character : Char}

theorem lastOperator?_append_singleton (visible : isBlank character = false) (text : Text) :
    lastOperator? (text ++ [character]) = Operator.ofSymbol? character := by
  simp [lastOperator?, Text.compact_append, Text.compact_cons visible, Text.compact_nil]

theorem lastOperator?_append_blank (blank : isBlank character = true) (text : Text) :
    lastOperator? (text ++ [character]) = lastOperator? text := by
  simp [lastOperator?, Text.compact_append, Text.compact_cons_of_isBlank blank, Text.compact_nil]

theorem levels_append_singleton (text : Text) (character : Char) :
    levels 0 (text ++ [character]) = levels 0 text ++
      (tokenOf? (netDepth text) Token.unknownPosition character).toList := by
  simp [levels_append, levels]

/-- The last token of a text is next to the end of the text. -/
def EndsNextTo (text : Text) : Prop :=
  IsNextTo (netDepth text) (lastOperator? text) (levels 0 text).getLast?

end Grammar

namespace Reader

open Grammar

variable {reader next last : Reader} {text : Text} {character : Char}

/-- A reader that expects an operand has the last token next to it, and a move keeps this. -/
theorem endsNextTo_of_moves (before : reader.expectsOperand = true → EndsNextTo text)
    (moves : reader.Moves text.length character next) :
    next.expectsOperand = true → EndsNextTo (text ++ [character]) := by
  intro expects
  rw [EndsNextTo, netDepth_append, levels_append_singleton, tokenOf?]
  cases moves with
  | blank blank =>
      rw [lastOperator?_append_blank blank, netDepth_of_isBlank blank, ofSymbol?_of_isBlank blank]
      simpa [EndsNextTo] using before expects
  | operand letter => cases expects
  | opening expects =>
      rw [lastOperator?_append_singleton Expression.opening_isPlain.1,
        Expression.opening_isPlain.2.2, netDepth_opening]
      intro token member
      have outside := (before expects).depth_le token (by simpa using member)
      omega
  | closing opened complete => cases expects.symm.trans complete
  | operator operator =>
      rw [lastOperator?_append_singleton operator.symbol_isPlain.1, netDepth_symbol,
        Operator.ofSymbol?_symbol]
      simp [IsNextTo]

theorem endsNextTo_of_run (read : start.run 0 text = .ok last) (expects : last.expectsOperand = true) :
    EndsNextTo text :=
  run_invariant (fun reader text => reader.expectsOperand = true → EndsNextTo text) []
    endsNextTo_of_moves (fun _ => nofun) read expects

end Reader

namespace Grammar

/-- The first token behind an operand is next to the operand. -/
theorem Accepts.isNextTo {count : Nat} {expects : Bool} {text : Text} {depth : Int}
    (accepts : Accepts count expects text.compact) (complete : expects = false) :
    IsNextTo depth (firstOperator? text) (levels depth text).head? := by
  rw [firstOperator?, ← levels_compact]
  generalize text.compact = visible at accepts
  induction accepts generalizing depth with
  | finish => exact nofun
  | operand letter => cases complete
  | opening => cases complete
  | @closing count rest accepts ih =>
      have noOperator : (Expression.closing :: rest).head?.bind Operator.ofSymbol? = none :=
        Expression.closing_isPlain.2.2.1
      have tokens : levels depth (Expression.closing :: rest) = levels (depth + -1) rest := by
        simp [levels, tokenOf?, Expression.closing_isPlain, netDepth_closing]
      rw [noOperator, tokens]
      intro token member
      have outside := (ih rfl).depth_le token member
      omega
  | operator operator accepts =>
      simp [levels, tokenOf?, Operator.ofSymbol?_symbol, IsNextTo]

end Grammar

end PolishNotation
