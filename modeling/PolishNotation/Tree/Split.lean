import PolishNotation.Tree

namespace PolishNotation

/-- A token outranks another one if it has a lower depth or binds looser at the same depth. -/
def Token.Outranks (token other : Token) : Prop :=
  token.depth < other.depth ∨ token.depth = other.depth ∧ other.TighterThan token

instance (token other : Token) : Decidable (token.Outranks other) :=
  inferInstanceAs (Decidable (_ ∨ _))

/-- A split is a token with the tokens before it and after it. -/
structure TokenSplit where
  before : List Token
  token : Token
  after : List Token

namespace TokenSplit

/-- The last token that no other token outranks splits the row. -/
def ofTokens? : List Token → Option TokenSplit
  | [] => none
  | token :: rest =>
      match ofTokens? rest with
      | none => some ⟨[], token, rest⟩
      | some split =>
          if token.Outranks split.token then some ⟨[], token, rest⟩
          else some { split with before := token :: split.before }

/-- The parts of a split are the row again. -/
theorem row_of_ofTokens? {tokens : List Token} {split : TokenSplit}
    (found : ofTokens? tokens = some split) :
    tokens = split.before ++ split.token :: split.after := by
  induction tokens generalizing split with
  | nil => cases found
  | cons token rest ih =>
      rw [ofTokens?] at found
      split at found
      · cases found
        rfl
      · rename_i inner same
        split at found
        · cases found
          rfl
        · cases found
          simpa using ih same

end TokenSplit

/-- The tokens before the split take one operand more than they are, and the tokens after it take
the other operands. -/
def Tree.ofSplit? (tokens : List Token) (operands : Text) : Option Tree :=
  match _found : TokenSplit.ofTokens? tokens with
  | none =>
      match operands with
      | [operand] => some (.leaf [operand])
      | _ => none
  | some split =>
      match ofSplit? split.before (operands.take (split.before.length + 1)),
        ofSplit? split.after (operands.drop (split.before.length + 1)) with
      | some left, some right => some (.node split.token left right)
      | _, _ => none
  termination_by tokens.length
  decreasing_by
    all_goals
      have row := congrArg List.length (TokenSplit.row_of_ofTokens? ‹_ = some split›)
      simp only [List.length_append, List.length_cons] at row
      omega

end PolishNotation
