import PolishNotation.Tree.Shape
import PolishNotation.Tree.Drawing
import Mathlib.Data.List.Forall2

namespace PolishNotation

namespace Token

variable {token other : Token}

/-- The separators stand outside the two numbers of a token. -/
theorem text_eq (token : Token) :
    token.text = token.operator.symbol :: ("(depth=".toList ++ (decimal token.depth ++
      ',' :: (" precedence=".toList ++ (decimal token.precedence ++ [')'])))) := by
  simp [text]

/-- The text of a token leaves out nothing but its position. -/
theorem text_eq_iff : token.text = other.text ↔ token.SameLabel other := by
  constructor
  · intro same
    rw [text_eq, text_eq] at same
    obtain ⟨symbols, numbers⟩ := List.cons.inj same
    have commaless := notMem_decimal ',' (by decide) (by decide)
    obtain ⟨depths, behind⟩ := Text.eq_of_append_separator (commaless token.depth)
      (commaless other.depth) (List.append_cancel_left numbers)
    have precedences := List.append_cancel_right (List.append_cancel_left behind)
    exact ⟨Operator.symbol_injective symbols, decimal_injective depths,
      decimal_injective precedences⟩
  · intro label
    rw [text, text, label.1, label.2.1, label.2.2]

theorem isLetterText_text (token : Token) : isLetterText token.text = false := by
  simp [text_eq, isLetterText]

theorem feed_notMem_text (token : Token) : '\n' ∉ token.text := by
  have numbers := notMem_decimal '\n' (by decide) (by decide)
  have symbol : '\n' ≠ token.operator.symbol := by
    cases token.operator <;> decide
  simp [text_eq, numbers, symbol]

end Token

theorem feed_notMem_of_isLetterText {operand : Text} (letter : isLetterText operand = true) :
    '\n' ∉ operand := by
  match operand, letter with
  | [character], letter =>
      intro present
      rw [← List.mem_singleton.1 present] at letter
      exact absurd letter (by decide)

namespace Tree

variable {tree first second left right : Tree} {distance : Nat}

/-- Every operand of a lettered tree is one letter. -/
def IsLettered (tree : Tree) : Prop :=
  ∀ operand ∈ tree.operands, isLetterText operand = true

instance (tree : Tree) : Decidable tree.IsLettered :=
  inferInstanceAs (Decidable (∀ operand ∈ tree.operands, _))

theorem isLettered_leaf {operand : Text} :
    (leaf operand).IsLettered ↔ isLetterText operand = true :=
  List.forall_mem_singleton

theorem isLettered_node {token : Token} :
    (node token left right).IsLettered ↔ left.IsLettered ∧ right.IsLettered :=
  List.forall_mem_append

theorem drawnLine_injective {label other : Text}
    (same : drawnLine distance label = drawnLine distance other) : label = other :=
  List.append_cancel_left same

/-- An operand and a token have different lines. -/
theorem drawnLine_operand_ne_token {operand : Text} {token : Token}
    (lettered : (leaf operand).IsLettered) :
    drawnLine distance operand ≠ drawnLine distance token.text := by
  intro same
  rw [isLettered_leaf, drawnLine_injective same, token.isLetterText_text] at lettered
  cases lettered

theorem feed_notMem_drawnLine {label : Text} (absent : '\n' ∉ label) :
    '\n' ∉ drawnLine distance label := by
  simp [drawnLine, absent]

/-- No line of a drawing breaks. -/
theorem feed_notMem_linesAt (lettered : tree.IsLettered) :
    ∀ line ∈ tree.linesAt distance, '\n' ∉ line := by
  induction tree generalizing distance with
  | leaf operand =>
      rw [linesAt, List.forall_mem_singleton]
      apply feed_notMem_drawnLine
      exact feed_notMem_of_isLetterText (isLettered_leaf.1 lettered)
  | node token left right leftStep rightStep =>
      obtain ⟨leftLettered, rightLettered⟩ := isLettered_node.1 lettered
      rw [linesAt, List.forall_mem_cons, List.forall_mem_append]
      exact ⟨feed_notMem_drawnLine token.feed_notMem_text, leftStep leftLettered,
        rightStep rightLettered⟩

/-- A drawing splits into the lines that it was made of. -/
theorem lines_drawing (lettered : tree.IsLettered) : Text.lines tree.drawing = tree.linesAt 0 := by
  rw [drawing_eq, Text.lines_joinLines (feed_notMem_linesAt lettered)]
  cases tree <;> simp [linesAt]

/-- Every address of a tree has its own line, and the line shows the node there. -/
theorem forall₂_addresses_linesAt (tree : Tree) (distance : Nat) :
    List.Forall₂ (fun address line => ∃ subtree, tree.subtree? address = some subtree ∧
        line = drawnLine (distance + address.length) subtree.label)
      tree.addresses (tree.linesAt distance) := by
  induction tree generalizing distance with
  | leaf operand => exact .cons ⟨leaf operand, rfl, rfl⟩ .nil
  | node token left right leftStep rightStep =>
      have length (side : Side) (rest : Address) :
          distance + (side :: rest).length = distance + 1 + rest.length := by
        rw [List.length_cons]
        omega
      rw [addresses, linesAt]
      apply List.Forall₂.cons ⟨node token left right, rfl, rfl⟩
      apply List.rel_append
      · rw [List.forall₂_map_left_iff]
        simpa only [subtree?, length] using leftStep (distance + 1)
      · rw [List.forall₂_map_left_iff]
        simpa only [subtree?, length] using rightStep (distance + 1)

/-- The lines of a drawing determine its tree, whatever lines follow them. -/
theorem agree_of_linesAt_append {rest otherRest : List Text} (lettered : first.IsLettered)
    (otherLettered : second.IsLettered)
    (same : first.linesAt distance ++ rest = second.linesAt distance ++ otherRest) :
    first.Agree Token.SameLabel second ∧ rest = otherRest := by
  induction first generalizing second distance rest otherRest with
  | leaf operand =>
      cases second with
      | leaf other =>
          obtain ⟨line, behind⟩ := List.cons.inj same
          rw [drawnLine_injective line]
          exact ⟨.leaf other, behind⟩
      | node token left right =>
          rw [linesAt] at same
          exact absurd (List.cons.inj same).1 (drawnLine_operand_ne_token lettered)
  | node token left right leftStep rightStep =>
      rw [linesAt] at same
      cases second with
      | leaf other =>
          exact absurd (List.cons.inj same).1.symm (drawnLine_operand_ne_token otherLettered)
      | node other otherLeft otherRight =>
          obtain ⟨leftLettered, rightLettered⟩ := isLettered_node.1 lettered
          obtain ⟨otherLeftLettered, otherRightLettered⟩ := isLettered_node.1 otherLettered
          rw [linesAt] at same
          simp only [List.cons_append, List.append_assoc, List.cons.injEq] at same
          obtain ⟨line, below⟩ := same
          obtain ⟨leftAgree, onRight⟩ := leftStep leftLettered otherLeftLettered below
          obtain ⟨rightAgree, behind⟩ := rightStep rightLettered otherRightLettered onRight
          have label := Token.text_eq_iff.1 (drawnLine_injective line)
          exact ⟨.node label leftAgree rightAgree, behind⟩

theorem Agree.linesAt_eq (agree : first.Agree Token.SameLabel second) :
    first.linesAt distance = second.linesAt distance := by
  induction agree generalizing distance with
  | leaf operand => rfl
  | node label _ _ leftStep rightStep =>
      rw [linesAt, linesAt, leftStep, rightStep, Token.text_eq_iff.2 label]

/-- The loop that draws a lettered tree ends after one step for every node, and further steps change
nothing. The drawing shows everything of the tree but the positions of its tokens. It has a line for
every node, an operator before its operands and the left operand before the right one, and a line is
indented twice as far as its node is away from the root. -/
theorem drawing_faithful (lettered : tree.IsLettered) :
    (∀ steps, tree.nodeCount ≤ steps →
        (drawAll steps [(tree, 0)] #[]).map Array.toList = some (Text.lines tree.drawing)) ∧
      (∀ other : Tree, other.IsLettered →
        (tree.drawing = other.drawing ↔ tree.Agree Token.SameLabel other)) ∧
      tree.addresses.Pairwise Address.Earlier ∧
      (∀ address : Address, address ∈ tree.addresses ↔ (tree.subtree? address).isSome) ∧
      List.Forall₂ (fun address line => ∃ subtree, tree.subtree? address = some subtree ∧
          line = List.replicate (2 * address.length) ' ' ++ subtree.label)
        tree.addresses (Text.lines tree.drawing) := by
  have lines := lines_drawing lettered
  refine ⟨?_, ?_, tree.pairwise_addresses, tree.mem_addresses_iff, ?_⟩
  · intro steps enough
    rw [drawAll_of_le enough, lines]
    rfl
  · intro other otherLettered
    constructor
    · intro same
      have otherLines := lines_drawing otherLettered
      rw [← same, lines] at otherLines
      have closed : tree.linesAt 0 ++ [] = other.linesAt 0 ++ [] := by rw [otherLines]
      exact (agree_of_linesAt_append lettered otherLettered closed).1
    · intro agree
      rw [drawing_eq, agree.linesAt_eq, drawing_eq]
  · rw [lines]
    have drawn := tree.forall₂_addresses_linesAt 0
    simpa only [Nat.zero_add, drawnLine] using drawn

/-- These five lines stay when the tokens move, and a depth that loses its sign changes them. -/
theorem drawing_faithful_moved :
    let tree := node ⟨.add, 10, -2, 1⟩ (leaf "A".toList)
      (node ⟨.divide, 0, 7, 3⟩ (leaf "b".toList) (leaf "A".toList))
    let moved := node ⟨.add, 10, -2, 5⟩ (leaf "A".toList)
      (node ⟨.divide, 0, 7, -1⟩ (leaf "b".toList) (leaf "A".toList))
    let deeper := node ⟨.add, 10, 2, 1⟩ (leaf "A".toList)
      (node ⟨.divide, 0, 7, 3⟩ (leaf "b".toList) (leaf "A".toList))
    tree.IsLettered ∧ moved.IsLettered ∧ deeper.IsLettered ∧ tree.drawing = moved.drawing ∧
      ¬ tree.Agree Token.SameLabel deeper ∧ (Text.lines tree.drawing).length = 5 := by
  intro tree moved deeper
  have lettered : tree.IsLettered := by decide
  have movedLettered : moved.IsLettered := by decide
  have deeperLettered : deeper.IsLettered := by decide
  obtain ⟨-, faithful, -, -, lines⟩ := drawing_faithful lettered
  have agree : tree.Agree Token.SameLabel moved :=
    .node ⟨rfl, rfl, rfl⟩ (.leaf _) (.node ⟨rfl, rfl, rfl⟩ (.leaf _) (.leaf _))
  refine ⟨lettered, movedLettered, deeperLettered, ?_, ?_, lines.length_eq.symm⟩
  · exact (faithful moved movedLettered).2 agree
  · intro wrong
    have same := (faithful deeper deeperLettered).2 wrong
    exact absurd same (by decide)

end Tree

end PolishNotation
