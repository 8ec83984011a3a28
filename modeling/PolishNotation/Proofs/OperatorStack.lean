import PolishNotation.Proofs.Construction

namespace PolishNotation

namespace OperatorStack

/-- A waiting token comes before a new token if it is deeper, or if it is equally deep and the new
token does not bind tighter. -/
def Precedes (waiting token : Token) : Prop :=
  token.depth < waiting.depth ∨
    waiting.depth = token.depth ∧ ¬ token.TighterThan waiting

instance (waiting token : Token) : Decidable (Precedes waiting token) :=
  inferInstanceAs (Decidable (_ ∨ _))

def symbols (tokens : List Token) : Text :=
  tokens.map fun token => token.operator.symbol

/-- The waiting tokens stand with the latest first. Operands and tokens alternate, and an operand
comes first. -/
def convertFrom (stack : List Token) : List Token → Text → Text
  | token :: tokens, operand :: operands =>
      operand :: symbols (stack.takeWhile fun waiting => Precedes waiting token) ++
        convertFrom (token :: stack.dropWhile fun waiting => Precedes waiting token) tokens operands
  | _, operands => operands ++ symbols stack

/-- No token waits at the start. -/
def convert (tokens : List Token) (operands : Text) : Text :=
  convertFrom [] tokens operands

/-- A waiting token goes on waiting for the tokens that it outranks. -/
theorem precedes_iff_not_outranks {waiting token : Token} :
    Precedes waiting token ↔ ¬ waiting.Outranks token := by
  simp only [Precedes, Token.Outranks, Token.TighterThan]
  omega

/-- This function goes on with the row directly after an operand. -/
def resume (stack : List Token) : List Token → Text → Text
  | [], operands => operands ++ symbols stack
  | token :: tokens, operands =>
      symbols (stack.takeWhile fun waiting => Precedes waiting token) ++
        convertFrom (token :: stack.dropWhile fun waiting => Precedes waiting token) tokens operands

theorem convertFrom_cons (stack tokens : List Token) (operand : Char) (operands : Text) :
    convertFrom stack tokens (operand :: operands) = operand :: resume stack tokens operands := by
  cases tokens <;> rfl

/-- No waiting token leaves the stack for a token that all of them outrank. -/
theorem resume_of_outranks {stack : List Token} {token : Token}
    (outranks : ∀ waiting ∈ stack, waiting.Outranks token) (tokens : List Token) (operands : Text) :
    resume stack (token :: tokens) operands = convertFrom (token :: stack) tokens operands := by
  cases stack with
  | nil => rfl
  | cons waiting stack =>
      have stays : ¬ Precedes waiting token := by
        rw [precedes_iff_not_outranks, not_not]
        exact outranks waiting List.mem_cons_self
      simp [resume, stays, symbols]

/-- A waiting token leaves the stack first if it does not outrank the next token. -/
theorem resume_cons {waiting : Token} {tokens : List Token} {operands : Text}
    (leaves : ∀ next ∈ tokens.head?, ¬ waiting.Outranks next) (ends : tokens = [] → operands = [])
    (stack : List Token) :
    resume (waiting :: stack) tokens operands =
      waiting.operator.symbol :: resume stack tokens operands := by
  cases tokens with
  | nil =>
      rw [ends rfl]
      rfl
  | cons next tokens =>
      have precedes : Precedes waiting next := precedes_iff_not_outranks.2 (leaves next rfl)
      simp [resume, precedes, symbols]

/-- A part of the row that has a tree writes the text of the tree, provided that all waiting tokens
outrank the part and the part does not outrank the token behind it. -/
theorem convertFrom_append {row : List Token} {operands : Text} {tree : Tree}
    (splits : Tree.Splits row operands tree) {stack tokens : List Token} {following : Text}
    (waits : ∀ waiting ∈ stack, ∀ token ∈ row, waiting.Outranks token)
    (leaves : ∀ token ∈ row, ∀ next ∈ tokens.head?, ¬ token.Outranks next)
    (ends : tokens = [] → following = []) :
    convertFrom stack (row ++ tokens) (operands ++ following) =
      tree.postorder ++ resume stack tokens following := by
  induction splits generalizing stack tokens following with
  | leaf operand => exact convertFrom_cons stack tokens operand following
  | @node before after token leftOperands rightOperands left right notOutranked outranks leftSplits
      rightSplits leftStep rightStep =>
      simp only [List.mem_append, List.mem_cons] at waits leaves
      -- The token joins the stack behind its left side and leaves it behind its right side.
      have enters : resume stack (token :: (after ++ tokens)) (rightOperands ++ following) =
          convertFrom (token :: stack) (after ++ tokens) (rightOperands ++ following) :=
        resume_of_outranks (fun waiting member => waits waiting member token (.inr (.inl rfl))) _ _
      have exits : resume (token :: stack) tokens following =
          token.operator.symbol :: resume stack tokens following :=
        resume_cons (leaves token (.inr (.inl rfl))) ends stack
      have rightWaits : ∀ waiting ∈ token :: stack, ∀ other ∈ after, waiting.Outranks other :=
        List.forall_mem_cons.2
          ⟨outranks, fun waiting member other inside => waits waiting member other (.inr (.inr inside))⟩
      have rightText := rightStep rightWaits
        (fun other inside => leaves other (.inr (.inr inside))) ends
      rw [exits] at rightText
      have leftText : convertFrom stack (before ++ token :: (after ++ tokens))
          (leftOperands ++ (rightOperands ++ following)) = left.postorder ++
            resume stack (token :: (after ++ tokens)) (rightOperands ++ following) := by
        refine leftStep ?_ ?_ (by simp)
        · exact fun waiting member other inside => waits waiting member other (.inl inside)
        · intro other inside next same
          cases same
          exact notOutranked other inside
      rw [enters, rightText] at leftText
      simpa [Tree.postorder_node] using leftText

/-- The tree of a row with one operand more than tokens exists, and its text is written in one pass
over the row. -/
theorem postorder_tree_eq_convert (tokens : List Token) (operands : Text)
    (enough : operands.length = tokens.length + 1) :
    ∃ tree, Expression.tree ⟨operands, tokens⟩ = .ok tree ∧
      tree.postorder = convert tokens operands := by
  obtain ⟨tree, splits⟩ := (Tree.exists_splits_iff tokens operands).2 enough
  refine ⟨tree, Expression.tree_of_splits splits, ?_⟩
  have written : convertFrom [] (tokens ++ []) (operands ++ []) =
      tree.postorder ++ resume [] [] [] :=
    convertFrom_append splits nofun nofun fun _ => rfl
  simpa [convert, resume, symbols] using written.symm

/-- Depths may be negative and precedences arbitrary. The later one of two equal tokens is applied
last. -/
theorem postorder_tree_eq_convert_mixed :
    "ABCDE".toList.length = List.length [Token.mk .add 2 1 3, ⟨.multiply, 5, -3, 9⟩,
        ⟨.subtract, 5, -3, -1⟩, ⟨.divide, -4, 6, -1⟩] + 1 ∧
      ∃ tree, Expression.tree ⟨"ABCDE".toList, [⟨.add, 2, 1, 3⟩, ⟨.multiply, 5, -3, 9⟩,
          ⟨.subtract, 5, -3, -1⟩, ⟨.divide, -4, 6, -1⟩]⟩ = .ok tree ∧
        tree.postorder = "AB+C*DE/-".toList := by
  have enough : "ABCDE".toList.length = List.length [Token.mk .add 2 1 3, ⟨.multiply, 5, -3, 9⟩,
      ⟨.subtract, 5, -3, -1⟩, ⟨.divide, -4, 6, -1⟩] + 1 := rfl
  exact ⟨enough, postorder_tree_eq_convert _ _ enough⟩

end OperatorStack

end PolishNotation
