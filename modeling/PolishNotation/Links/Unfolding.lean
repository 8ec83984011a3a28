import PolishNotation.Links.Table
import PolishNotation.Tree

namespace PolishNotation

namespace LinkTable

variable {count : Nat} {tokens : Vector Token count}

/-- The free operators stand in their order. -/
def roots (table : LinkTable tokens) : List (Fin count) :=
  (List.finRange count).filter table.isFree

/-- The links form one tree only if exactly one operator is free. -/
def root (table : LinkTable tokens) : Except Fault (Fin count) :=
  match table.roots with
  | [index] => .ok index
  | indices => .error (.whole (.rootCount (indices.map fun index => (index.val : Int))))

/-- The trees of the operators that are finished so far. -/
abbrev Built (count : Nat) := Vector (Option Tree) count

/-- An operand is a tree of its own and an operator has a tree when it is finished. -/
def childTree? (built : Built count) : Child count → Option Tree
  | .operand operand => some (.leaf operand)
  | .operator index => built.get index

/-- The tree of an operator needs a finished tree in both slots. An empty slot gives no tree, where
an operand without a text could stand: no slot is empty when every operand has its place. -/
def nodeTree? (table : LinkTable tokens) (built : Built count) (index : Fin count) :
    Option Tree := do
  let left ← (table.slot ⟨.left, index⟩).bind (childTree? built)
  let right ← (table.slot ⟨.right, index⟩).bind (childTree? built)
  return .node (tokens.get index) left right

/-- This function lists the operator of a slot unless its tree is finished. -/
def unfinished (table : LinkTable tokens) (built : Built count) (place : Place count) :
    List (Fin count) :=
  match table.slot place with
  | some (.operator index) => if (built.get index).isNone then [index] else []
  | _ => []

/-- The operators that must be finished before an operator stand in its slots. The one on the right
is finished first. -/
def waiting (table : LinkTable tokens) (built : Built count) (index : Fin count) :
    List (Fin count) :=
  table.unfinished built ⟨.right, index⟩ ++ table.unfinished built ⟨.left, index⟩

/-- The first operator of the agenda is finished or waits for the operators put in front of it. The
result is missing if the steps run out or a slot is empty. -/
def finishAll (table : LinkTable tokens) :
    Nat → List (Fin count) → Built count → Option (Built count)
  | _, [], built => some built
  | 0, _ :: _, _ => none
  | steps + 1, index :: agenda, built =>
      match table.waiting built index with
      | [] =>
          match table.nodeTree? built index with
          | none => none
          | some tree => table.finishAll steps agenda (built.set index (some tree) index.isLt)
      | next :: more => table.finishAll steps (next :: more ++ index :: agenda) built

/-- Without a circle every operator waits at most once and puts at most two operators on the
agenda, so this number of steps is enough. -/
def agendaSteps (count : Nat) : Nat :=
  3 * count + 1

/-- This function builds the tree below an operator. -/
def treeAt? (table : LinkTable tokens) (index : Fin count) : Option Tree :=
  match table.finishAll (agendaSteps count) [index] (Vector.replicate _ none) with
  | none => none
  | some built => built.get index

/-- An operand unfolds to its leaf and an operator to a node over what its slots unfold to. -/
inductive Unfolds (table : LinkTable tokens) : Child count → Tree → Prop where
  | operand (text : Text) : Unfolds table (.operand text) (.leaf text)
  | operator {index : Fin count} {left right : Child count} {leftTree rightTree : Tree}
      (leftSlot : table.slot ⟨.left, index⟩ = some left)
      (rightSlot : table.slot ⟨.right, index⟩ = some right)
      (leftUnfolds : Unfolds table left leftTree)
      (rightUnfolds : Unfolds table right rightTree) :
      Unfolds table (.operator index) (.node (tokens.get index) leftTree rightTree)

/-- The links determine what a child unfolds to. -/
theorem Unfolds.unique {table : LinkTable tokens} {child : Child count} {first second : Tree}
    (one : table.Unfolds child first) (other : table.Unfolds child second) : first = second := by
  induction one generalizing second with
  | operand text => cases other; rfl
  | operator leftSlot rightSlot _ _ leftStep rightStep =>
      cases other with
      | operator otherLeft otherRight leftUnfolds rightUnfolds =>
          rw [leftSlot] at otherLeft
          rw [rightSlot] at otherRight
          cases otherLeft
          cases otherRight
          rw [leftStep leftUnfolds, rightStep rightUnfolds]

end LinkTable

end PolishNotation
