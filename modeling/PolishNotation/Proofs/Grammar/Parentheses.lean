import PolishNotation.Grammar.Parentheses
import PolishNotation.Proofs.Grammar.Flat
import PolishNotation.Proofs.Grammar.Layered

namespace PolishNotation.Grammar

variable {first second third : Text}

theorem Balanced.append (one : Balanced first) (other : Balanced second) :
    Balanced (first ++ second) := by
  induction one with
  | nil => exact other
  | plain opening closing balanced ih => exact .plain opening closing ih
  | group inner rest innerStep restStep => simpa using Balanced.group inner restStep

/-- The texts of the grammar are balanced. -/
theorem Flat.balanced {kind : FlatKind} {text : Text} (flat : Flat kind text) : Balanced text := by
  induction flat with
  | operand letter =>
      have plain := ne_parenthesis_of_isLetter letter
      exact .plain plain.1 plain.2 .nil
  | group inner ih => exact .group ih .nil
  | single member ih => exact ih
  | join operator member expression memberStep expressionStep =>
      have plain := operator.symbol_isPlain.2.2
      exact memberStep.append (.plain plain.1 plain.2 expressionStep)

/-- Blank characters are no parentheses. -/
theorem Balanced.compact {text : Text} (balanced : Balanced text) : Balanced text.compact := by
  induction balanced with
  | nil => exact .nil
  | @plain character rest opening closing balanced ih =>
      cases visible : isBlank character with
      | true => rwa [Text.compact_cons_of_isBlank visible]
      | false =>
          rw [Text.compact_cons visible]
          exact .plain opening closing ih
  | group inner rest innerStep restStep =>
      rw [Text.compact_append, Text.compact_cons Expression.opening_isPlain.1,
        Text.compact_cons Expression.closing_isPlain.1]
      exact .group innerStep restStep

/-- The depth behind a balanced text is the depth in front of it. -/
theorem Balanced.netDepth_eq_zero {text : Text} (balanced : Balanced text) : netDepth text = 0 := by
  induction balanced with
  | nil => rfl
  | @plain character rest opening closing balanced ih =>
      rw [← List.singleton_append, netDepth_append, netDepth_of_ne opening closing, ih]
      rfl
  | @group inner rest innerBalanced restBalanced innerStep restStep =>
      rw [List.append_cons, netDepth_append, netDepth_group, innerStep, restStep]
      rfl

/-- Two matching parentheses put the tokens between them one level deeper. -/
theorem Balanced.levels_pair {inner : Text} (balanced : Balanced inner) (depth : Int)
    (rest : Text) :
    levels depth (Expression.opening :: inner ++ Expression.closing :: rest) =
      levels (depth + 1) inner ++ levels depth rest := by
  rw [List.append_cons, levels_append, levels_group, netDepth_group, balanced.netDepth_eq_zero,
    Int.add_zero]

/-- No token of a balanced text stands outside of it. -/
theorem Balanced.le_depth {text : Text} (balanced : Balanced text) (depth : Int) :
    ∀ token ∈ levels depth text, depth ≤ token.depth := by
  induction balanced generalizing depth with
  | nil => nofun
  | @plain character rest opening closing balanced ih =>
      rw [levels, netDepth_of_ne opening closing, Int.add_zero]
      intro token member
      rcases List.mem_append.1 member with first | later
      · obtain ⟨operator, -, rfl⟩ := Option.map_eq_some_iff.1 (Option.mem_toList.1 first)
        exact Int.le_refl depth
      · exact ih depth token later
  | @group inner rest innerBalanced restBalanced innerStep restStep =>
      rw [innerBalanced.levels_pair]
      intro token member
      rcases List.mem_append.1 member with inside | behind
      · have deeper := innerStep (depth + 1) token inside
        omega
      · exact restStep depth token behind

theorem accepts_opening_iff {depth : Nat} {expects : Bool} {rest : Text} :
    Accepts depth expects (Expression.opening :: rest) ↔
      expects = true ∧ Accepts (depth + 1) true rest := by
  constructor
  · intro accepts
    generalize same : Expression.opening = character at accepts
    cases accepts with
    | operand letter => exact absurd same.symm (ne_parenthesis_of_isLetter letter).1
    | opening accepts => exact ⟨rfl, accepts⟩
    | closing => exact absurd same.symm Expression.closing_isPlain.2.2.2
    | operator operator => exact absurd same.symm operator.symbol_isPlain.2.2.1
  · rintro ⟨rfl, accepts⟩
    exact .opening accepts

theorem accepts_closing_iff {depth : Nat} {expects : Bool} {rest : Text} :
    Accepts depth expects (Expression.closing :: rest) ↔
      expects = false ∧ ∃ outer, depth = outer + 1 ∧ Accepts outer false rest := by
  constructor
  · intro accepts
    generalize same : Expression.closing = character at accepts
    cases accepts with
    | operand letter => exact absurd same.symm (ne_parenthesis_of_isLetter letter).2
    | opening => exact absurd same Expression.closing_isPlain.2.2.2
    | @closing outer _ accepts => exact ⟨rfl, outer, rfl, accepts⟩
    | operator operator => exact absurd same.symm operator.symbol_isPlain.2.2.2
  · rintro ⟨rfl, outer, rfl, accepts⟩
    exact .closing accepts

/-- A balanced text leads to the same state whatever groups are open around it. -/
theorem Balanced.accepts {text : Text} (balanced : Balanced text) {depth : Nat} {expects : Bool}
    {rest : Text} (accepts : Accepts depth expects (text ++ rest)) :
    ∃ state, Accepts depth state rest ∧ ∀ {other : Nat} {last : Text},
      Accepts other state last → Accepts other expects (text ++ last) := by
  induction balanced generalizing depth expects rest with
  | nil => exact ⟨expects, accepts, id⟩
  | @plain character tail opening closing balanced ih =>
      cases accepts with
      | operand letter accepts =>
          obtain ⟨state, accepts, anywhere⟩ := ih accepts
          exact ⟨state, accepts, fun last => .operand letter (anywhere last)⟩
      | opening => exact absurd rfl opening
      | closing => exact absurd rfl closing
      | operator operator accepts =>
          obtain ⟨state, accepts, anywhere⟩ := ih accepts
          exact ⟨state, accepts, fun last => .operator operator (anywhere last)⟩
  | @group inner tail innerBalanced tailBalanced innerStep tailStep =>
      rw [List.append_assoc, List.cons_append, accepts_opening_iff] at accepts
      obtain ⟨rfl, accepts⟩ := accepts
      obtain ⟨state, accepts, innerAnywhere⟩ := innerStep accepts
      rw [List.cons_append, accepts_closing_iff] at accepts
      obtain ⟨rfl, outer, same, accepts⟩ := accepts
      cases same
      obtain ⟨state, accepts, anywhere⟩ := tailStep accepts
      refine ⟨state, accepts, fun last => ?_⟩
      simpa using Accepts.opening (innerAnywhere (.closing (anywhere last)))

/-- Between two matching parentheses stands an expression, and they stand for an operand. -/
theorem Accepts.of_pair {inner rest : Text} {depth : Nat} {expects : Bool}
    (accepts : Accepts depth expects
      (Expression.opening :: inner ++ Expression.closing :: rest))
    (balanced : Balanced inner) :
    expects = true ∧ Flat .expression inner ∧ Accepts depth false rest := by
  rw [List.cons_append, accepts_opening_iff] at accepts
  obtain ⟨state, behind, anywhere⟩ := balanced.accepts accepts.2
  obtain ⟨rfl, outer, same, behind⟩ := accepts_closing_iff.1 behind
  cases same
  have whole := anywhere .finish
  rw [List.append_nil, accepts_iff_flat] at whole
  exact ⟨accepts.1, whole, behind⟩

theorem Layered.balanced {layer : Layer} {text : Text} {term : Term}
    (layered : Layered layer text term) : Balanced text :=
  layered.flat.1.balanced

/-- A text may stand between two others while it loses characters. -/
theorem Removes.context (removes : Removes first second) (before after : Text) :
    Removes (before ++ first ++ after) (before ++ second ++ after) := by
  cases removes with
  | blank front back blank => simpa using Removes.blank (before ++ front) (back ++ after) blank
  | pair front back balanced =>
      simpa using Removes.pair (before ++ front) (back ++ after) balanced

theorem Removes.length_lt (removes : Removes first second) : second.length < first.length := by
  cases removes with
  | blank front back blank => simp
  | pair front back balanced =>
      simp only [List.length_append, List.length_cons]
      omega

namespace Reduces

theorem refl (text : Text) : Reduces text text :=
  Relation.ReflTransGen.refl

theorem trans (one : Reduces first second) (other : Reduces second third) : Reduces first third :=
  Relation.ReflTransGen.trans one other

theorem single (removes : Removes first second) : Reduces first second :=
  Relation.ReflTransGen.single removes

theorem context (reduces : Reduces first second) (before after : Text) :
    Reduces (before ++ first ++ after) (before ++ second ++ after) :=
  Relation.ReflTransGen.lift (fun text => before ++ text ++ after)
    (fun _ _ removes => removes.context before after) _ _ reduces

/-- Two parts of a text reduce one after the other. -/
theorem append {third fourth : Text} (one : Reduces first second) (other : Reduces third fourth) :
    Reduces (first ++ third) (second ++ fourth) := by
  have left := one.context [] third
  have right := other.context second []
  simp only [List.nil_append, List.append_nil] at left right
  exact left.trans right

/-- All blank characters may be removed. -/
theorem compact (text : Text) : Reduces text text.compact := by
  induction text with
  | nil => exact .refl []
  | cons character rest ih =>
      have later : Reduces (character :: rest) (character :: Text.compact rest) := by
        simpa using ih.context [character] []
      cases visible : isBlank character with
      | false => rwa [Text.compact_cons visible]
      | true =>
          rw [Text.compact_cons_of_isBlank visible]
          exact later.trans (.single (.blank [] (Text.compact rest) visible))

/-- A text that loses nothing is the same text, and every other text is shorter. -/
theorem eq_or_length_lt (reduces : Reduces first second) :
    first = second ∨ second.length < first.length := by
  induction reduces with
  | refl => exact .inl rfl
  | tail _ removes ih =>
      have shorter := removes.length_lt
      rcases ih with rfl | longer
      · exact .inr shorter
      · exact .inr (by omega)

end Reduces

end PolishNotation.Grammar
