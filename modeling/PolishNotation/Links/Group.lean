import Mathlib.Logic.ExistsUnique
import PolishNotation.Links.Table

namespace PolishNotation

variable {count : Nat}

/-- Two tokens share a group if they have the same depth and no token between them is less deep. -/
def SameGroup (tokens : Vector Token count) (first second : Fin count) : Prop :=
  (tokens.get first).depth = (tokens.get second).depth ∧
    ∀ between : Fin count,
      (first ≤ between ∧ between ≤ second) ∨ (second ≤ between ∧ between ≤ first) →
        (tokens.get first).depth ≤ (tokens.get between).depth

instance (tokens : Vector Token count) (first second : Fin count) :
    Decidable (SameGroup tokens first second) :=
  inferInstanceAs (Decidable (_ ∧ _))

/-- The nearest earlier token of the same group is the previous one. -/
def PreviousInGroup (tokens : Vector Token count) (previous index : Fin count) : Prop :=
  previous < index ∧ SameGroup tokens previous index ∧
    ∀ between : Fin count, previous < between → between < index →
      ¬ SameGroup tokens between index

instance (tokens : Vector Token count) (previous index : Fin count) :
    Decidable (PreviousInGroup tokens previous index) :=
  inferInstanceAs (Decidable (_ ∧ _ ∧ _))

/-- A token displaces a subtree if it does not bind tighter than the previous token of its group but
tighter than an earlier one, which stays above it. -/
def Displaces (tokens : Vector Token count) (index : Fin count) : Prop :=
  (∃ previous, PreviousInGroup tokens previous index ∧
      ¬ (tokens.get index).TighterThan (tokens.get previous)) ∧
    ∃ earlier, earlier < index ∧ SameGroup tokens earlier index ∧
      (tokens.get index).TighterThan (tokens.get earlier)

instance (tokens : Vector Token count) (index : Fin count) : Decidable (Displaces tokens index) :=
  inferInstanceAs (Decidable (_ ∧ _))

theorem SameGroup.refl (tokens : Vector Token count) (index : Fin count) :
    SameGroup tokens index index := by
  refine ⟨rfl, fun between range => ?_⟩
  rcases range with ⟨lower, upper⟩ | ⟨lower, upper⟩ <;>
    exact (Fin.le_antisymm lower upper) ▸ Int.le_refl _

theorem SameGroup.symm {tokens : Vector Token count} {first second : Fin count}
    (same : SameGroup tokens first second) : SameGroup tokens second first := by
  refine ⟨same.1.symm, fun between range => ?_⟩
  rw [← same.1]
  exact same.2 between range.symm

/-- Every token between the ends of two joined ways lies on one of them. -/
theorem SameGroup.trans {tokens : Vector Token count} {first second third : Fin count}
    (one : SameGroup tokens first second) (other : SameGroup tokens second third) :
    SameGroup tokens first third := by
  refine ⟨one.1.trans other.1, fun between range => ?_⟩
  by_cases near : (first ≤ between ∧ between ≤ second) ∨ (second ≤ between ∧ between ≤ first)
  · exact one.2 between near
  · rw [one.1]
    exact other.2 between (by omega)

variable {tokens : Vector Token count}

namespace LinkTable

/-- The row of a slot lists the operators that it holds from left to right. -/
inductive InOrder (table : LinkTable tokens) : Option (Child count) → List (Fin count) → Prop where
  | empty : InOrder table none []
  | operator {index : Fin count} {before after : List (Fin count)}
      (left : InOrder table (table.slot ⟨.left, index⟩) before)
      (right : InOrder table (table.slot ⟨.right, index⟩) after) :
      InOrder table (some (.operator index)) (before ++ index :: after)

/-- The links of the table form a forest with one tree for every group. Parents and slots agree,
every operator stands in one slot at most, and a tree read in order is its group read in order. -/
structure IsForest (table : LinkTable tokens) : Prop where
  parent_iff : ∀ child parent, table.parent.get child = some parent ↔
    ∃ side, table.slot ⟨side, parent⟩ = some (.operator child)
  slot_unique : ∀ first second child, table.slot first = some (.operator child) →
    table.slot second = some (.operator child) → first = second
  no_operand : ∀ place operand, table.slot place ≠ some (.operand operand)
  sameGroup : ∀ place child, table.slot place = some (.operator child) →
    SameGroup tokens place.index child
  right_tighter : ∀ index child, table.slot ⟨.right, index⟩ = some (.operator child) →
    (tokens.get child).TighterThan (tokens.get index)
  left_not_looser : ∀ index child, table.slot ⟨.left, index⟩ = some (.operator child) →
    ¬ (tokens.get index).TighterThan (tokens.get child)
  existsUnique_root : ∀ index, ∃! root, table.isFree root ∧ SameGroup tokens root index
  exists_inOrder : ∀ root, table.isFree root →
    ∃ row, table.InOrder (some (.operator root)) row ∧ row.Pairwise (· < ·) ∧
      ∀ index, index ∈ row ↔ SameGroup tokens root index

end LinkTable

end PolishNotation
