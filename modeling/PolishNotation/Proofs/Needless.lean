import PolishNotation.Proofs.Grammar.Meaning
import PolishNotation.Proofs.Grammar.Neighbour
import PolishNotation.Proofs.Grammar.OuterOperators
import PolishNotation.Proofs.Tree.Block

namespace PolishNotation

namespace Grammar

variable {before inner after : Text}

/-- The tokens of a text have the same tree at every depth. -/
theorem exists_splits_at_depth {depth other : Int} {operands : Text} {tree : Tree}
    (splits : Tree.Splits (levels depth inner) operands tree) :
    ∃ changed, Tree.Splits (levels other inner) operands changed ∧
      changed.erased = tree.erased := by
  have difference : depth + (other - depth) = other := by omega
  rw [← difference, levels_add]
  exact ⟨_, splits.mapTokens (Token.outranks_deepened _),
    Tree.erased_mapTokens (Token.erased_deepened _) tree⟩

/-- These facts hold around two matching parentheses of a text that can be read. -/
structure IsPair (before inner after : Text) : Prop where
  balanced : Balanced inner
  front : EndsNextTo before
  back : IsNextTo (netDepth before) (firstOperator? after) (levels (netDepth before) after).head?
  inside : Flat .expression inner.compact
  deleted : Flat .expression (before ++ inner ++ after).compact

namespace IsPair

/-- Both parentheses stand where an operand is expected. -/
theorem of_flat (balanced : Balanced inner)
    (flat : Flat .expression
      (before ++ Expression.opening :: inner ++ Expression.closing :: after).compact) :
    IsPair before inner after := by
  rw [List.append_assoc] at flat
  obtain ⟨expression, read⟩ := Expression.exists_ofText_iff.2 flat
  obtain ⟨reader, run⟩ := Expression.exists_run_of_append read
  have accepts := (Expression.exists_ofText_append_iff run).1 ⟨expression, read⟩
  rw [Text.compact_append, Text.compact_cons Expression.opening_isPlain.1,
    Text.compact_cons Expression.closing_isPlain.1] at accepts
  obtain ⟨expects, inside, behind⟩ := accepts.of_pair balanced.compact
  have deleted : Accepts reader.depth reader.expectsOperand (inner ++ after).compact := by
    rw [expects, Text.compact_append]
    exact inside.accepts behind
  refine ⟨balanced, Reader.endsNextTo_of_run run expects, behind.isNextTo rfl, inside, ?_⟩
  rw [List.append_assoc]
  exact Expression.exists_ofText_iff.1 ((Expression.exists_ofText_append_iff run).2 deleted)

variable (pair : IsPair before inner after)

include pair

theorem levels_eq :
    levels 0 (before ++ Expression.opening :: inner ++ Expression.closing :: after) =
      levels 0 before ++ levels (netDepth before + 1) inner ++ levels (netDepth before) after := by
  rw [List.append_assoc, levels_append, Int.zero_add, pair.balanced.levels_pair, List.append_assoc]

theorem levels_deleted :
    levels 0 (before ++ inner ++ after) =
      levels 0 before ++ levels (netDepth before) inner ++ levels (netDepth before) after := by
  rw [List.append_assoc, levels_append, levels_append, pair.balanced.netDepth_eq_zero,
    Int.zero_add, Int.add_zero, List.append_assoc]

/-- Parentheses keep the tokens between them together. -/
theorem isBlock :
    IsBlock (levels 0 before) (levels (netDepth before + 1) inner)
      (levels (netDepth before) after) := by
  constructor
  · intro outer last
    have outside := Int.lt_add_one_of_le (pair.front.depth_le outer last)
    exact pair.balanced.outranks_of_depth_lt outside
  · intro outer first token member
    have outside := Int.lt_add_one_of_le (pair.back.depth_le outer first)
    exact (pair.balanced.outranks_of_depth_lt outside token member).asymm

/-- The neighbours of needless parentheses keep the tokens between them together. -/
theorem isBlock_iff_needless :
    IsBlock (levels 0 before) (levels (netDepth before) inner) (levels (netDepth before) after) ↔
      Needless before inner after := by
  have front : (∀ outer ∈ (levels 0 before).getLast?,
      ∀ token ∈ levels (netDepth before) inner, outer.Outranks token) ↔
        ∀ operator, lastOperator? before = some operator →
          ∀ inside ∈ outerOperators inner, inside.precedence < operator.precedence := by
    rw [pair.front.forall_iff fun outer outside => pair.balanced.outranks_of_depth_lt outside]
    simp only [pair.balanced.forall_outranks_iff]
  have back : (∀ outer ∈ (levels (netDepth before) after).head?,
      ∀ token ∈ levels (netDepth before) inner, ¬ token.Outranks outer) ↔
        ∀ operator, firstOperator? after = some operator →
          ∀ inside ∈ outerOperators inner, inside.precedence ≤ operator.precedence := by
    rw [pair.back.forall_iff fun outer outside token member =>
      (pair.balanced.outranks_of_depth_lt outside token member).asymm]
    simp only [pair.balanced.forall_not_outranks_iff]
  rw [needless_iff, ← front, ← back]
  exact ⟨fun isBlock => ⟨isBlock.front, isBlock.back⟩, fun both => ⟨both.1, both.2⟩⟩

/-- Deleting the parentheses keeps the tree exactly if they are needless. -/
theorem erased_eq_iff_needless {operands : Text} {tree changed : Tree}
    (splits : Tree.Splits
      (levels 0 (before ++ Expression.opening :: inner ++ Expression.closing :: after)) operands tree)
    (changedSplits : Tree.Splits (levels 0 (before ++ inner ++ after)) operands changed) :
    changed.erased = tree.erased ↔ Needless before inner after := by
  rw [pair.levels_eq] at splits
  rw [pair.levels_deleted] at changedSplits
  rw [← pair.isBlock_iff_needless]
  constructor
  · exact splits.isBlock_of_erased_eq rfl pair.isBlock changedSplits
  · intro isBlock
    obtain ⟨found, foundSplits, same⟩ :=
      splits.exists_of_isBlock exists_splits_at_depth rfl pair.isBlock isBlock
    rwa [changedSplits.unique foundSplits]

end IsPair

end Grammar

/-- Deleting two matching parentheses leaves a text that can be converted, to the same result exactly
if the parentheses are needless. They enclose no operator directly exactly if they enclose a letter
or two other parentheses with what is between them. -/
theorem toPostfix_of_deletion {before inner after output : Text}
    (balanced : Grammar.Balanced inner)
    (converted : toPostfix
      (before ++ Expression.opening :: inner ++ Expression.closing :: after) = .ok output) :
    ∃ reduced, toPostfix (before ++ inner ++ after) = .ok reduced ∧
      (reduced = output ↔ Grammar.Needless before inner after) ∧
      (Grammar.outerOperators inner = [] ↔
        (∃ character, isLetter character = true ∧ inner.compact = [character]) ∨
          ∃ content, Grammar.Balanced content ∧
            inner.compact = Expression.opening :: content ++ [Expression.closing]) := by
  have pair := Grammar.IsPair.of_flat balanced (exists_toPostfix_iff.1 ⟨output, converted⟩)
  obtain ⟨reduced, deleted⟩ := exists_toPostfix_iff.2 pair.deleted
  refine ⟨reduced, deleted, ?_, pair.inside.outerOperators_eq_nil_iff⟩
  obtain ⟨term, means, rfl⟩ := toPostfix_eq_ok_iff.1 converted
  obtain ⟨other, otherMeans, rfl⟩ := toPostfix_eq_ok_iff.1 deleted
  obtain ⟨tree, splits, same⟩ := means.exists_splits_levels
  obtain ⟨changed, changedSplits, changedSame⟩ := otherMeans.exists_splits_levels
  have letters : (before ++ Expression.opening :: inner ++ Expression.closing :: after).filter
      isLetter = (before ++ inner ++ after).filter isLetter := by
    simp [Expression.opening_isPlain, Expression.closing_isPlain]
  rw [letters] at splits
  rw [← pair.erased_eq_iff_needless splits changedSplits, same, changedSame]
  exact (Term.tree_eq_iff (Grammar.Layered.lettered otherMeans)
    (Grammar.Layered.lettered means)).symm

/-- A product needs no parentheses between a looser operator and one that binds equally tight. -/
theorem toPostfix_of_deletion_product :
    Grammar.Balanced "B *(c)".toList ∧
      toPostfix "A- (B *(c))/D".toList = .ok "ABc*D/-".toList ∧
      toPostfix "A- B *(c)/D".toList = .ok "ABc*D/-".toList ∧
      Grammar.Needless "A- ".toList "B *(c)".toList "/D".toList ∧
      (Grammar.outerOperators "B *(c)".toList = [] ↔
        (∃ character, isLetter character = true ∧ Text.compact "B *(c)".toList = [character]) ∨
          ∃ content, Grammar.Balanced content ∧ Text.compact "B *(c)".toList =
            Expression.opening :: content ++ [Expression.closing]) := by
  have group : Grammar.Balanced "(c)".toList :=
    .group (.plain (by decide) (by decide) .nil) .nil
  have balanced : Grammar.Balanced "B *(c)".toList :=
    .plain (by decide) (by decide) (.plain (by decide) (by decide)
      (.plain (by decide) (by decide) group))
  have converted : toPostfix ("A- ".toList ++ Expression.opening :: "B *(c)".toList ++
      Expression.closing :: "/D".toList) = .ok "ABc*D/-".toList := by rfl
  have deleted : toPostfix "A- B *(c)/D".toList = .ok "ABc*D/-".toList := by rfl
  obtain ⟨reduced, found, needless, directly⟩ := toPostfix_of_deletion balanced converted
  cases deleted.symm.trans found
  exact ⟨balanced, converted, deleted, needless.1 rfl, directly⟩

end PolishNotation
