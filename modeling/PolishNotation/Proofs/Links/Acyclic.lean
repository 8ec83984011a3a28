import Mathlib.Data.Fintype.EquivFin
import PolishNotation.Proofs.Links.Unfolding

namespace PolishNotation

variable {count : Nat} {tokens : Vector Token count}

namespace LinkTable

variable {table : LinkTable tokens} {root : Fin count}

/-- An operator holds another one in either of its slots. -/
def Holds (table : LinkTable tokens) (upper lower : Fin count) : Prop :=
  ∃ side, table.slot ⟨side, upper⟩ = some (.operator lower)

/-- An operator reaches itself and every operator further down through the slots. -/
def Reaches (table : LinkTable tokens) : Fin count → Fin count → Prop :=
  Relation.ReflTransGen table.Holds

/-- A way down through at least one slot leads back to the operator. -/
def IsOnCircle (table : LinkTable tokens) (index : Fin count) : Prop :=
  Relation.TransGen table.Holds index index

/-- One operator is below another one that the root reaches. -/
def IsBelow (table : LinkTable tokens) (root lower upper : Fin count) : Prop :=
  table.Reaches root upper ∧ Relation.TransGen table.Holds upper lower

/-- Without a circle there is no endless way down. -/
theorem wellFounded_isBelow
    (acyclic : ∀ index, table.Reaches root index → ¬ table.IsOnCircle index) :
    WellFounded (table.IsBelow root) := by
  have trans : IsTrans (Fin count) (table.IsBelow root) := by
    constructor
    intro lower middle upper one other
    exact ⟨other.1, other.2.trans one.2⟩
  have irrefl : Std.Irrefl (table.IsBelow root) := by
    constructor
    intro index below
    exact acyclic index below.1 below.2
  exact Finite.wellFounded_of_trans_of_irrefl (table.IsBelow root)

/-- The child of a filled slot has an unfolding if the operators below have one. -/
theorem exists_unfolds_slot {place : Place count} (filled : table.slot place ≠ none)
    (below : ∀ lower, table.slot place = some (.operator lower) →
      ∃ tree, table.Unfolds (.operator lower) tree) :
    ∃ child tree, table.slot place = some child ∧ table.Unfolds child tree := by
  obtain ⟨child, content⟩ := Option.ne_none_iff_exists'.1 filled
  cases child with
  | operand text => exact ⟨_, _, content, .operand text⟩
  | operator lower =>
      obtain ⟨tree, unfolds⟩ := below lower content
      exact ⟨_, tree, content, unfolds⟩

/-- Every operator that is reached has an unfolding. -/
theorem exists_unfolds_of_acyclic
    (acyclic : ∀ index, table.Reaches root index → ¬ table.IsOnCircle index)
    (filled : ∀ place, table.Reaches root place.index → table.slot place ≠ none)
    {index : Fin count} (reached : table.Reaches root index) :
    ∃ tree, table.Unfolds (.operator index) tree := by
  induction index using (wellFounded_isBelow acyclic).induction with
  | _ index ih =>
    have side (place : Place count) (own : place.index = index) :
        ∃ child tree, table.slot place = some child ∧ table.Unfolds child tree := by
      subst own
      apply exists_unfolds_slot (filled place reached)
      intro lower content
      have holds : table.Holds place.index lower := ⟨place.side, content⟩
      exact ih lower ⟨reached, .single holds⟩ (reached.tail holds)
    obtain ⟨left, leftTree, leftSlot, leftUnfolds⟩ := side ⟨.left, index⟩ rfl
    obtain ⟨right, rightTree, rightSlot, rightUnfolds⟩ := side ⟨.right, index⟩ rfl
    exact ⟨_, .operator leftSlot rightSlot leftUnfolds rightUnfolds⟩

/-- If no operator that the root reaches lies on a circle and all their slots are filled, the agenda
comes to its end within its bound, and no finished tree is missing on the way. The tree of the root
is the unfolding of the links. -/
theorem treeAt?_of_acyclic {table : LinkTable tokens} {root : Fin count}
    (acyclic : ∀ index, table.Reaches root index → ¬ table.IsOnCircle index)
    (filled : ∀ place, table.Reaches root place.index → table.slot place ≠ none) :
    ∃ tree, table.treeAt? root = some tree ∧ table.Unfolds (.operator root) tree ∧
      ∃ built : Built count, built.get root = some tree ∧ ∀ more,
        table.finishAll (agendaSteps count + more) [root] (Vector.replicate count none) =
          some built := by
  obtain ⟨tree, unfolds⟩ := exists_unfolds_of_acyclic acyclic filled .refl
  exact ⟨tree, treeAt?_of_unfolds unfolds, unfolds, exists_built_of_unfolds unfolds⟩

/-- In this table the first operator holds the second one twice and the second one the third one
twice, and the parents are wrong. -/
theorem treeAt?_of_acyclic_shared :
    let tokens : Vector Token 3 :=
      #v[.ofOperator .add 0 1, .ofOperator .multiply 0 3, .ofOperator .subtract 0 5]
    let table : LinkTable tokens :=
      ⟨#v[some (.operator 1), some (.operator 2), some (.operand ['A'])],
        #v[some (.operator 1), some (.operator 2), some (.operand ['B'])],
        #v[some 0, none, some 2], #[]⟩
    let third : Tree := .node (tokens.get 2) (.leaf ['A']) (.leaf ['B'])
    let second : Tree := .node (tokens.get 1) third third
    (∀ index, table.Reaches 0 index → ¬ table.IsOnCircle index) ∧
      (∀ place, table.Reaches 0 place.index → table.slot place ≠ none) ∧
      table.treeAt? 0 = some (.node (tokens.get 0) second second) := by
  intro tokens table third second
  have down : ∀ upper lower, table.Holds upper lower → upper < lower := by
    intro upper lower ⟨side, held⟩
    revert upper lower
    cases side <;> decide
  have lower {upper index : Fin 3} (way : Relation.TransGen table.Holds upper index) :
      upper < index := by
    induction way with
    | single holds => exact down _ _ holds
    | tail _ holds ih => exact Fin.lt_trans ih (down _ _ holds)
  have acyclic : ∀ index, table.Reaches 0 index → ¬ table.IsOnCircle index :=
    fun index _ circle => Fin.lt_irrefl index (lower circle)
  have filled : ∀ place, table.Reaches 0 place.index → table.slot place ≠ none := by
    intro ⟨side, index⟩ reached
    clear reached
    revert index
    cases side <;> decide
  obtain ⟨tree, found, unfolds, -⟩ := treeAt?_of_acyclic acyclic filled
  have thirdUnfolds : table.Unfolds (.operator 2) third :=
    .operator rfl rfl (.operand _) (.operand _)
  have secondUnfolds : table.Unfolds (.operator 1) second :=
    .operator rfl rfl thirdUnfolds thirdUnfolds
  have whole := unfolds.unique (.operator rfl rfl secondUnfolds secondUnfolds)
  exact ⟨acyclic, filled, found.trans (congrArg some whole)⟩

end LinkTable

end PolishNotation
