import PolishNotation.Proofs.Tree.Split
import PolishNotation.Proofs.Grammar.Tokens
import PolishNotation.Term

namespace PolishNotation

/-- This function forgets where a token stands and how deep. -/
def Token.erased (token : Token) : Token :=
  { token with depth := 0, position := Token.unknownPosition }

theorem Token.erased_unplaced (token : Token) : token.unplaced.erased = token.erased := rfl

theorem Token.erased_deepened (more : Int) (token : Token) :
    (token.deepened more).erased = token.erased := rfl

/-- Tokens that get deeper together keep their order. -/
theorem Token.outranks_deepened (more : Int) (token other : Token) :
    (token.deepened more).Outranks (other.deepened more) ↔ token.Outranks other := by
  simp only [Outranks, TighterThan, deepened]
  omega

namespace Tree

/-- Every token is changed and every operand stays. -/
def mapTokens (change : Token → Token) : Tree → Tree
  | leaf operand => leaf operand
  | node token left right =>
      node (change token) (left.mapTokens change) (right.mapTokens change)

/-- An erased tree keeps the operators and their precedences only. -/
def erased (tree : Tree) : Tree :=
  tree.mapTokens Token.erased

theorem erased_node (token : Token) (left right : Tree) :
    (node token left right).erased = node token.erased left.erased right.erased := rfl

/-- A change of depths and positions keeps the erased tree. -/
theorem erased_mapTokens {change : Token → Token}
    (keeps : ∀ token, (change token).erased = token.erased) (tree : Tree) :
    (tree.mapTokens change).erased = tree.erased := by
  induction tree with
  | leaf operand => rfl
  | node token left right leftStep rightStep =>
      rw [mapTokens, erased_node, erased_node, keeps, leftStep, rightStep]

theorem postorder_erased (tree : Tree) : tree.erased.postorder = tree.postorder := by
  induction tree with
  | leaf operand => rfl
  | node token left right leftStep rightStep =>
      rw [erased_node, postorder_node, postorder_node, leftStep, rightStep]
      rfl

/-- A change that keeps the order of the tokens keeps the splits. -/
theorem Splits.mapTokens {change : Token → Token} {tokens : List Token} {operands : Text}
    {tree : Tree} (keeps : ∀ token other, (change token).Outranks (change other) ↔
      token.Outranks other) (splits : Splits tokens operands tree) :
    Splits (tokens.map change) operands (tree.mapTokens change) := by
  induction splits with
  | leaf operand => exact .leaf operand
  | node notOutranked outranks leftSplits rightSplits leftStep rightStep =>
      rw [List.map_append, List.map_cons]
      refine .node ?_ ?_ leftStep rightStep
      · intro other member
        obtain ⟨old, oldMember, rfl⟩ := List.mem_map.1 member
        rw [keeps]
        exact notOutranked old oldMember
      · intro other member
        obtain ⟨old, oldMember, rfl⟩ := List.mem_map.1 member
        rw [keeps]
        exact outranks old oldMember

/-- A row splits to the same tree up to positions as the row without positions. -/
theorem exists_splits_of_unplaced {tokens : List Token} {operands : Text} {tree : Tree}
    (splits : Splits (tokens.map Token.unplaced) operands tree) :
    ∃ placed, Splits tokens operands placed ∧ placed.erased = tree.erased := by
  have enough := splits.length
  rw [List.length_map] at enough
  obtain ⟨placed, placedSplits⟩ := (exists_splits_iff tokens operands).2 enough
  have keeps (token other : Token) : token.unplaced.Outranks other.unplaced ↔
      token.Outranks other := Iff.rfl
  have same := erased_mapTokens (fun token => token.erased_unplaced) placed
  rw [← splits.unique (placedSplits.mapTokens keeps)] at same
  exact ⟨placed, placedSplits, same.symm⟩

end Tree

/-- The tree of a term has tokens that stand nowhere. -/
def Term.tree : Term → Tree
  | operand character => .leaf [character]
  | binary operator left right =>
      .node (.ofOperator operator 0 Token.unknownPosition) left.tree right.tree

theorem Term.postorder_tree (term : Term) : term.tree.postorder = term.postorder := by
  induction term with
  | operand character => rfl
  | binary operator left right leftStep rightStep =>
      rw [tree, Tree.postorder_node, leftStep, rightStep]
      rfl

end PolishNotation
