import PolishNotation.Tree.Shape

namespace PolishNotation

/-- The brackets are the two characters that a bracketed text adds. -/
def isBracket (character : Char) : Bool :=
  character = '[' || character = ']'

theorem isBracket_symbol (operator : Operator) : isBracket operator.symbol = false := by
  cases operator <;> rfl

namespace Tree

variable {tree first second left right : Tree}

/-- The operands of a bracketless tree are any texts without brackets. -/
def IsBracketless (tree : Tree) : Prop :=
  ∀ operand ∈ tree.operands, '[' ∉ operand ∧ ']' ∉ operand

instance (tree : Tree) : Decidable tree.IsBracketless :=
  inferInstanceAs (Decidable (∀ operand ∈ tree.operands, _))

theorem isBracketless_leaf {operand : Text} :
    (leaf operand).IsBracketless ↔ '[' ∉ operand ∧ ']' ∉ operand :=
  List.forall_mem_singleton

theorem isBracketless_node {token : Token} :
    (node token left right).IsBracketless ↔ left.IsBracketless ∧ right.IsBracketless :=
  List.forall_mem_append

/-- The brackets are all that the two texts of a tree differ in. -/
theorem filter_bracketed (plain : tree.IsBracketless) :
    tree.bracketed.filter (fun character => !isBracket character) = tree.postorder := by
  induction tree with
  | leaf operand =>
      obtain ⟨unopened, unclosed⟩ := isBracketless_leaf.1 plain
      rw [bracketed_leaf, postorder_leaf, List.filter_eq_self]
      intro character present
      have noOpening : character ≠ '[' := fun equal => unopened (equal ▸ present)
      have noClosing : character ≠ ']' := fun equal => unclosed (equal ▸ present)
      simp [isBracket, noOpening, noClosing]
  | node token left right leftStep rightStep =>
      obtain ⟨leftPlain, rightPlain⟩ := isBracketless_node.1 plain
      have opening : isBracket '[' = true := rfl
      have closing : isBracket ']' = true := rfl
      simp [bracketed_node, postorder_node, leftStep leftPlain, rightStep rightPlain,
        isBracket_symbol, opening, closing]

/-- An operand in front of a closing bracket does not look like an operator with its operands. -/
theorem append_closing_ne_opening {operand rest other : Text}
    (plain : (leaf operand).IsBracketless) : operand ++ ']' :: rest ≠ '[' :: other := by
  intro same
  cases operand with
  | nil => exact absurd (List.cons.inj same).1 (by decide)
  | cons character others =>
      rw [(List.cons.inj same).1] at plain
      exact (isBracketless_leaf.1 plain).1 List.mem_cons_self

/-- A bracketed text with a closing bracket behind it determines its tree and its end. -/
theorem agree_of_bracketed_append {rest otherRest : Text} (plain : first.IsBracketless)
    (otherPlain : second.IsBracketless)
    (same : first.bracketed ++ ']' :: rest = second.bracketed ++ ']' :: otherRest) :
    first.Agree Token.SameOperator second ∧ rest = otherRest := by
  induction first generalizing second rest otherRest with
  | leaf operand =>
      rw [bracketed_leaf] at same
      cases second with
      | leaf other =>
          rw [bracketed_leaf] at same
          obtain ⟨rfl, rfl⟩ := Text.eq_of_append_separator (isBracketless_leaf.1 plain).2
            (isBracketless_leaf.1 otherPlain).2 same
          exact ⟨.leaf operand, rfl⟩
      | node token left right =>
          rw [bracketed_node] at same
          exact absurd same (append_closing_ne_opening plain)
  | node token left right leftStep rightStep =>
      rw [bracketed_node] at same
      cases second with
      | leaf other =>
          rw [bracketed_leaf] at same
          exact absurd same.symm (append_closing_ne_opening otherPlain)
      | node other otherLeft otherRight =>
          obtain ⟨leftPlain, rightPlain⟩ := isBracketless_node.1 plain
          obtain ⟨otherLeftPlain, otherRightPlain⟩ := isBracketless_node.1 otherPlain
          rw [bracketed_node] at same
          simp only [List.append_assoc, List.cons_append, List.nil_append, List.cons.injEq,
            true_and] at same
          obtain ⟨leftAgree, onRight⟩ := leftStep leftPlain otherLeftPlain same
          obtain ⟨rightAgree, behind⟩ := rightStep rightPlain otherRightPlain
            (List.cons.inj onRight).2
          have tokens := Operator.symbol_injective (List.cons.inj behind).1
          exact ⟨.node tokens leftAgree rightAgree, (List.cons.inj (List.cons.inj behind).2).2⟩

theorem Agree.bracketed_eq (agree : first.Agree Token.SameOperator second) :
    first.bracketed = second.bracketed := by
  induction agree with
  | leaf operand => rfl
  | node tokens _ _ leftStep rightStep =>
      rw [bracketed_node, bracketed_node, leftStep, rightStep, tokens]

/-- The loop that puts the operators behind their operands ends after the visits of the tree, and
further steps change nothing. It writes the bracketed text without its brackets. With its brackets
this text shows the whole tree but the numbers of its tokens. -/
theorem bracketed_faithful (plain : tree.IsBracketless) :
    (∀ steps, tree.visits ≤ steps →
        (emitAll steps [(tree, false)] #[]).map (fun output => output.toList.flatten) =
          some (tree.bracketed.filter fun character => !isBracket character)) ∧
      tree.bracketed.filter (fun character => !isBracket character) = tree.postorder ∧
      ∀ other : Tree, other.IsBracketless →
        (tree.bracketed = other.bracketed ↔ tree.Agree Token.SameOperator other) := by
  refine ⟨?_, filter_bracketed plain, fun other otherPlain => ?_⟩
  · intro steps enough
    rw [emitAll_of_le enough, filter_bracketed plain, postorder_eq]
    rfl
  · constructor
    · intro same
      have closed : tree.bracketed ++ [']'] = other.bracketed ++ [']'] := by rw [same]
      exact (agree_of_bracketed_append plain otherPlain closed).1
    · exact Agree.bracketed_eq

/-- Without brackets an empty operand and an operand that looks like an operator hide the shape of
these two trees. -/
theorem bracketed_faithful_ambiguous :
    let first := node (.ofOperator .add 0 0) (leaf [])
      (node (.ofOperator .multiply 1 2) (leaf "A+".toList) (leaf []))
    let second := node (.ofOperator .add 0 3)
      (node (.ofOperator .multiply 0 1) (leaf "A".toList) (leaf "+".toList)) (leaf [])
    first.IsBracketless ∧ second.IsBracketless ∧ first.postorder = second.postorder ∧
      first.bracketed.filter (fun character => !isBracket character) = first.postorder ∧
      ¬ first.Agree Token.SameOperator second := by
  intro first second
  have plain : first.IsBracketless := by decide
  have otherPlain : second.IsBracketless := by decide
  obtain ⟨-, unbracketed, faithful⟩ := bracketed_faithful plain
  refine ⟨plain, otherPlain, by decide, unbracketed, ?_⟩
  intro agree
  have same := (faithful second otherPlain).2 agree
  exact absurd same (by decide)

end Tree

end PolishNotation
