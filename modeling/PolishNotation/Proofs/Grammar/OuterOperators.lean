import PolishNotation.Proofs.Grammar.Parentheses

namespace PolishNotation.Grammar

variable {before inner after : Text}

theorem outerOperators_eq (text : Text) :
    outerOperators text =
      ((levels 0 text).filter fun token => token.depth = 0).map Token.operator := by
  rw [← map_unplaced_tokensOf, List.filter_map, List.map_map]
  rfl

theorem outerOperators_eq_nil_iff_levels (text : Text) :
    outerOperators text = [] ↔ ∀ token ∈ levels 0 text, token.depth ≠ 0 := by
  simp [outerOperators_eq]

/-- The operators outside all parentheses of a text belong to its tokens at the depth around it. -/
theorem forall_outerOperators_iff {property : Operator → Prop} (depth : Int) :
    (∀ operator ∈ outerOperators inner, property operator) ↔
      ∀ token ∈ levels depth inner, token.depth = depth → property token.operator := by
  have deeper := levels_add 0 depth inner
  rw [Int.zero_add] at deeper
  have outer (token : Token) : token.depth + depth = depth ↔ token.depth = 0 := by omega
  rw [outerOperators_eq, deeper, List.forall_mem_map, List.forall_mem_map]
  simp [Token.deepened, outer]

/-- Two parentheses are needless if the operators next to them bind looser than the operators
directly between them, and the one behind them may bind equally loose. -/
theorem needless_iff :
    Needless before inner after ↔
      (∀ operator, lastOperator? before = some operator →
        ∀ inside ∈ outerOperators inner, inside.precedence < operator.precedence) ∧
      ∀ operator, firstOperator? after = some operator →
        ∀ inside ∈ outerOperators inner, inside.precedence ≤ operator.precedence := by
  rw [Needless]
  cases found : loosest? inner with
  | none =>
      rw [loosest?, List.max?_eq_none_iff, List.map_eq_nil_iff] at found
      simp [found]
  | some bound =>
      obtain ⟨member, highest⟩ := List.max?_eq_some_iff.1 found
      rw [List.forall_mem_map] at highest
      obtain ⟨loosest, present, same⟩ := List.mem_map.1 member
      subst same
      have some : outerOperators inner ≠ [] := List.ne_nil_of_mem present
      simp only [some, false_or, Option.some.injEq, exists_eq_left']
      constructor
      · rintro ⟨front, back⟩
        exact ⟨fun operator last inside outer =>
            Int.lt_of_le_of_lt (highest inside outer) (front operator last),
          fun operator first inside outer =>
            Int.le_trans (highest inside outer) (back operator first)⟩
      · rintro ⟨front, back⟩
        exact ⟨fun operator last => front operator last loosest present,
          fun operator first => back operator first loosest present⟩

/-- All tokens of a balanced text have a property exactly if the operators outside all parentheses
have theirs, provided that deeper tokens always have it. -/
theorem Balanced.forall_levels_iff (balanced : Balanced inner) {depth : Int}
    {ofToken : Token → Prop} {ofOperator : Operator → Prop}
    (agree : ∀ token : Token, depth ≤ token.depth → token.precedence = token.operator.precedence →
      (ofToken token ↔ (token.depth = depth → ofOperator token.operator))) :
    (∀ token ∈ levels depth inner, ofToken token) ↔
      ∀ operator ∈ outerOperators inner, ofOperator operator := by
  rw [forall_outerOperators_iff depth]
  exact forall₂_congr fun token member =>
    agree token (balanced.le_depth depth token member) (precedence_of_mem_levels member)

/-- A token outside of a balanced text outranks its tokens. -/
theorem Balanced.outranks_of_depth_lt (balanced : Balanced inner) {depth : Int} {outer : Token}
    (outside : outer.depth < depth) : ∀ token ∈ levels depth inner, outer.Outranks token :=
  fun token member => .inl (Int.lt_of_lt_of_le outside (balanced.le_depth depth token member))

/-- An operator in front of a balanced text outranks its tokens if it binds looser than all operators
outside its parentheses. -/
theorem Balanced.forall_outranks_iff (balanced : Balanced inner) (depth : Int)
    (operator : Operator) :
    (∀ token ∈ levels depth inner,
        (Token.ofOperator operator depth Token.unknownPosition).Outranks token) ↔
      ∀ inside ∈ outerOperators inner, inside.precedence < operator.precedence := by
  refine balanced.forall_levels_iff fun token within same => ?_
  simp only [Token.Outranks, Token.TighterThan, Token.ofOperator]
  omega

/-- No token of a balanced text outranks an operator behind it if no operator outside its parentheses
binds looser. -/
theorem Balanced.forall_not_outranks_iff (balanced : Balanced inner) (depth : Int)
    (operator : Operator) :
    (∀ token ∈ levels depth inner,
        ¬ token.Outranks (Token.ofOperator operator depth Token.unknownPosition)) ↔
      ∀ inside ∈ outerOperators inner, inside.precedence ≤ operator.precedence := by
  refine balanced.forall_levels_iff fun token within same => ?_
  simp only [Token.Outranks, Token.TighterThan, Token.ofOperator]
  omega

/-- An expression has operators outside all parentheses unless it is a letter or stands in
parentheses as a whole. -/
theorem Flat.outerOperators_eq_nil_iff (flat : Flat .expression inner.compact) :
    outerOperators inner = [] ↔
      (∃ character, isLetter character = true ∧ inner.compact = [character]) ∨
        ∃ content, Balanced content ∧
          inner.compact = Expression.opening :: content ++ [Expression.closing] := by
  rw [outerOperators_eq_nil_iff_levels, ← levels_compact]
  generalize inner.compact = visible at flat ⊢
  constructor
  · intro deeper
    cases flat with
    | single member =>
        cases member with
        | operand letter => exact .inl ⟨_, letter, rfl⟩
        | group content => exact .inr ⟨_, content.balanced, rfl⟩
    | join operator member expression =>
        rw [levels_join 0 member.balanced.netDepth_eq_zero] at deeper
        exact absurd rfl (deeper _ (List.mem_append_right _ List.mem_cons_self))
  · rintro (⟨character, letter, rfl⟩ | ⟨content, balanced, rfl⟩)
    · simp [levels_letter letter]
    · rw [levels_group]
      intro token member
      have inside := balanced.le_depth (0 + 1) token member
      omega

end PolishNotation.Grammar
