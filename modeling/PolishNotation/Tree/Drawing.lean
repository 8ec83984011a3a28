import PolishNotation.Text
import PolishNotation.Tree

namespace PolishNotation

namespace Tree

/-- A node at a distance from the root is indented by twice the distance. -/
def drawnLine (distance : Nat) (label : Text) : Text :=
  List.replicate (2 * distance) ' ' ++ label

/-- Each pass of the loop draws the node that it takes from the stack. The operands of an operator go
on the stack with one more to their distance, the left one last. The result is missing if the steps
run out. -/
def drawAll : Nat → List (Tree × Nat) → Array Text → Option (Array Text)
  | _, [], lines => some lines
  | 0, _ :: _, _ => none
  | steps + 1, (leaf operand, distance) :: stack, lines =>
      drawAll steps stack (lines.push (drawnLine distance operand))
  | steps + 1, (node token left right, distance) :: stack, lines =>
      drawAll steps ((left, distance + 1) :: (right, distance + 1) :: stack)
        (lines.push (drawnLine distance token.text))

def nodeCount : Tree → Nat
  | leaf _ => 1
  | node _ left right => left.nodeCount + right.nodeCount + 1

/-- These lines draw a tree whose root stands at a distance. -/
def linesAt : Tree → Nat → List Text
  | leaf operand, distance => [drawnLine distance operand]
  | node token left right, distance =>
      drawnLine distance token.text ::
        (left.linesAt (distance + 1) ++ right.linesAt (distance + 1))

/-- The loop has drawn a whole tree before it takes the entry below the tree. -/
theorem drawAll_nodeCount (tree : Tree) (distance steps : Nat) (stack : List (Tree × Nat))
    (lines : Array Text) :
    drawAll (tree.nodeCount + steps) ((tree, distance) :: stack) lines =
      drawAll steps stack (lines ++ (tree.linesAt distance).toArray) := by
  induction tree generalizing distance steps stack lines with
  | leaf operand =>
      rw [nodeCount, Nat.add_comm, drawAll, linesAt]
      simp
  | node token left right leftStep rightStep =>
      have spent : (node token left right).nodeCount + steps =
          left.nodeCount + (right.nodeCount + steps) + 1 := by
        rw [nodeCount]
        omega
      rw [spent, drawAll, leftStep, rightStep, linesAt]
      simp

/-- The loop ends after the nodes of the tree, and further steps change nothing. -/
theorem drawAll_of_le {tree : Tree} {steps : Nat} (enough : tree.nodeCount ≤ steps) :
    drawAll steps [(tree, 0)] #[] = some (tree.linesAt 0).toArray := by
  obtain ⟨spare, rfl⟩ := Nat.exists_eq_add_of_le enough
  rw [drawAll_nodeCount, drawAll]
  simp

theorem isSome_drawAll (tree : Tree) : (drawAll tree.nodeCount [(tree, 0)] #[]).isSome := by
  rw [drawAll_of_le (Nat.le_refl _)]
  rfl

/-- A drawing is one text with a line for every node. -/
def drawing (tree : Tree) : Text :=
  Text.joinLines ((drawAll tree.nodeCount [(tree, 0)] #[]).get tree.isSome_drawAll).toList

theorem drawing_eq (tree : Tree) : tree.drawing = Text.joinLines (tree.linesAt 0) := by
  simp only [drawing, drawAll_of_le (Nat.le_refl _), Option.get_some]

end Tree

end PolishNotation
