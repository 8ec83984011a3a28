import PolishNotation.Tree

namespace PolishNotation

/-- The empty address belongs to the root. -/
abbrev Address := List Side

/-- The left side comes first. -/
def Side.Before (side other : Side) : Prop :=
  side = left ∧ other = right

/-- A node comes before the nodes below it, and those on its left before those on its right. -/
def Address.Earlier : Address → Address → Prop :=
  List.Lex Side.Before

namespace Tree

/-- This function follows an address. An operand has nothing below it. -/
def subtree? : Tree → Address → Option Tree
  | tree, [] => some tree
  | leaf _, _ :: _ => none
  | node _ left _, .left :: rest => left.subtree? rest
  | node _ _ right, .right :: rest => right.subtree? rest

/-- The addresses of the nodes start with the root, and the left operand goes before the right
one. -/
def addresses : Tree → List Address
  | leaf _ => [[]]
  | node _ left right =>
      [] :: (left.addresses.map (.left :: ·) ++ right.addresses.map (.right :: ·))

/-- An operand stands for itself and a token stands for its subtree. -/
def label : Tree → Text
  | leaf operand => operand
  | node token _ _ => token.text

/-- The addresses lead to the nodes. -/
theorem mem_addresses_iff (tree : Tree) (address : Address) :
    address ∈ tree.addresses ↔ (tree.subtree? address).isSome := by
  induction tree generalizing address with
  | leaf operand => cases address <;> simp [addresses, subtree?]
  | node token left right leftStep rightStep =>
      match address with
      | [] => simp [addresses, subtree?]
      | .left :: rest => simp [addresses, subtree?, leftStep]
      | .right :: rest => simp [addresses, subtree?, rightStep]

theorem pairwise_addresses (tree : Tree) : tree.addresses.Pairwise Address.Earlier := by
  induction tree with
  | leaf operand => exact List.pairwise_singleton _ _
  | node token left right leftStep rightStep =>
      have below (side : Side) {operand : Tree}
          (ordered : operand.addresses.Pairwise Address.Earlier) :
          (operand.addresses.map (side :: ·)).Pairwise Address.Earlier :=
        List.pairwise_map.2 (ordered.imp List.Lex.cons)
      rw [addresses, List.pairwise_cons, List.pairwise_append]
      refine ⟨?_, below .left leftStep, below .right rightStep, ?_⟩
      · rw [List.forall_mem_append, List.forall_mem_map, List.forall_mem_map]
        exact ⟨fun _ _ => List.Lex.nil, fun _ _ => List.Lex.nil⟩
      · rw [List.forall_mem_map]
        intro first _
        rw [List.forall_mem_map]
        intro second _
        exact List.Lex.rel ⟨rfl, rfl⟩

end Tree

namespace Token

/-- These tokens show the same symbol. -/
def SameOperator (token other : Token) : Prop :=
  token.operator = other.operator

/-- These tokens differ in their positions at most. -/
def SameLabel (token other : Token) : Prop :=
  token.SameOperator other ∧ token.depth = other.depth ∧ token.precedence = other.precedence

end Token

namespace Tree

/-- Two trees agree if they have the same shape, the same operands and related tokens. -/
inductive Agree (related : Token → Token → Prop) : Tree → Tree → Prop
  | leaf (operand : Text) : Agree related (leaf operand) (leaf operand)
  | node {token other : Token} {left right otherLeft otherRight : Tree}
      (tokens : related token other) (leftAgree : Agree related left otherLeft)
      (rightAgree : Agree related right otherRight) :
      Agree related (node token left right) (node other otherLeft otherRight)

end Tree

end PolishNotation
