import PolishNotation.Token

/-! This file introduces expression trees and their two texts on one line. -/

namespace PolishNotation

/-- A tree is an operand or an operator token with one tree on each side. -/
inductive Tree where
  | leaf (operand : Text)
  | node (token : Token) (left right : Tree)
  deriving DecidableEq

namespace Tree

/-- The bracketed text goes in front of the rest. -/
def bracketedOnto (tree : Tree) (rest : Text) : Text :=
  match tree with
  | leaf operand => operand ++ rest
  | node token left right =>
      '[' :: left.bracketedOnto
        (']' :: '[' :: right.bracketedOnto (']' :: token.operator.symbol :: rest))

/-- Brackets enclose both operands of an operator and the operator follows them. -/
def bracketed (tree : Tree) : Text :=
  tree.bracketedOnto []

/-- Each pass of the loop takes one entry from the stack. An operator that is taken for the first
time goes back to the stack as visited, and its operands go on top of it, the left one last. The
result is missing if the steps run out. -/
def emitAll : Nat → List (Tree × Bool) → Array Text → Option (Array Text)
  | _, [], output => some output
  | 0, _ :: _, _ => none
  | steps + 1, (leaf operand, _) :: stack, output => emitAll steps stack (output.push operand)
  | steps + 1, (node token _ _, true) :: stack, output =>
      emitAll steps stack (output.push [token.operator.symbol])
  | steps + 1, (node token left right, false) :: stack, output =>
      emitAll steps ((left, false) :: (right, false) :: (node token left right, true) :: stack)
        output

/-- The loop takes an operand once and an operator twice. -/
def visits : Tree → Nat
  | leaf _ => 1
  | node _ left right => left.visits + right.visits + 2

/-- The left operand comes first, the right operand next and the operator last. -/
def emitted : Tree → List Text
  | leaf operand => [operand]
  | node token left right => left.emitted ++ right.emitted ++ [[token.operator.symbol]]

/-- The loop has written a whole tree before it takes the entry below the tree. -/
theorem emitAll_visits (tree : Tree) (steps : Nat) (stack : List (Tree × Bool))
    (output : Array Text) :
    emitAll (tree.visits + steps) ((tree, false) :: stack) output =
      emitAll steps stack (output ++ tree.emitted.toArray) := by
  induction tree generalizing steps stack output with
  | leaf operand =>
      rw [visits, Nat.add_comm, emitAll, emitted]
      simp
  | node token left right leftStep rightStep =>
      have spent : (node token left right).visits + steps =
          left.visits + (right.visits + (steps + 1)) + 1 := by
        rw [visits]
        omega
      rw [spent, emitAll, leftStep, rightStep, emitAll, emitted]
      simp

/-- The loop ends after the visits of the tree, and further steps change nothing. -/
theorem emitAll_of_le {tree : Tree} {steps : Nat} (enough : tree.visits ≤ steps) :
    emitAll steps [(tree, false)] #[] = some tree.emitted.toArray := by
  obtain ⟨spare, rfl⟩ := Nat.exists_eq_add_of_le enough
  rw [emitAll_visits, emitAll]
  simp

theorem isSome_emitAll (tree : Tree) : (emitAll tree.visits [(tree, false)] #[]).isSome := by
  rw [emitAll_of_le (Nat.le_refl _)]
  rfl

/-- An operator follows its left operand and its right operand. -/
def postorder (tree : Tree) : Text :=
  ((emitAll tree.visits [(tree, false)] #[]).get tree.isSome_emitAll).toList.flatten

/-- The leaves from left to right are the operands. -/
def operands : Tree → List Text
  | leaf operand => [operand]
  | node _ left right => left.operands ++ right.operands

/-- The tokens from left to right stand between the operands. -/
def tokens : Tree → List Token
  | leaf _ => []
  | node token left right => left.tokens ++ token :: right.tokens

theorem bracketedOnto_eq (tree : Tree) (rest : Text) :
    tree.bracketedOnto rest = tree.bracketed ++ rest := by
  induction tree generalizing rest with
  | leaf operand => simp [bracketed, bracketedOnto]
  | node token left right leftStep rightStep =>
      rw [bracketed, bracketedOnto, bracketedOnto, leftStep, rightStep,
        leftStep (']' :: _), rightStep [_, _]]
      simp

theorem bracketed_leaf (operand : Text) : (leaf operand).bracketed = operand := by
  simp [bracketed, bracketedOnto]

theorem bracketed_node (token : Token) (left right : Tree) :
    (node token left right).bracketed =
      ['['] ++ left.bracketed ++ [']', '['] ++ right.bracketed ++
        [']', token.operator.symbol] := by
  rw [bracketed, bracketedOnto, bracketedOnto_eq, bracketedOnto_eq]
  simp

theorem postorder_eq (tree : Tree) : tree.postorder = tree.emitted.flatten := by
  simp only [postorder, emitAll_of_le (Nat.le_refl _), Option.get_some]

theorem postorder_leaf (operand : Text) : (leaf operand).postorder = operand := by
  simp [postorder_eq, emitted]

theorem postorder_node (token : Token) (left right : Tree) :
    (node token left right).postorder =
      left.postorder ++ right.postorder ++ [token.operator.symbol] := by
  simp [postorder_eq, emitted]

end Tree

end PolishNotation
