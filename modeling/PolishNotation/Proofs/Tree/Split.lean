import PolishNotation.Tree.Split

namespace PolishNotation

/-- A member of a joined row stands in the first part or in the second part. -/
theorem append_eq_append_cons_iff {Member : Type} {first second before after : List Member}
    {member : Member} :
    first ++ second = before ++ member :: after ↔
      (∃ middle, first = before ++ member :: middle ∧ after = middle ++ second) ∨
        ∃ middle, before = first ++ middle ∧ second = middle ++ member :: after := by
  constructor
  · intro same
    rcases List.append_eq_append_iff.1 same with ⟨middle, shorter, rest⟩ | ⟨middle, longer, rest⟩
    · exact .inr ⟨middle, shorter, rest⟩
    · rcases List.cons_eq_append_iff.1 rest with ⟨rfl, starts⟩ | ⟨inner, rfl, ends⟩
      · exact .inr ⟨[], by simpa using longer.symm, starts⟩
      · exact .inl ⟨inner, longer, ends⟩
  · rintro (⟨middle, rfl, rfl⟩ | ⟨middle, rfl, rfl⟩) <;> simp

theorem Token.Outranks.asymm {first second : Token} (upper : first.Outranks second) :
    ¬ second.Outranks first := by
  simp only [Outranks, TighterThan] at *
  omega

/-- What does not outrank a token is outranked by everything that outranks this token. -/
theorem Token.Outranks.of_not {first second third : Token} (upper : first.Outranks second)
    (lower : ¬ third.Outranks second) : first.Outranks third := by
  simp only [Outranks, TighterThan] at *
  omega

namespace TokenSplit

/-- The token of the split is the last one that no other token outranks. -/
structure IsLastHighest (split : TokenSplit) : Prop where
  notOutranked : ∀ other ∈ split.before, ¬ other.Outranks split.token
  outranks : ∀ other ∈ split.after, split.token.Outranks other

theorem exists_ofTokens? (token : Token) (rest : List Token) :
    ∃ split, ofTokens? (token :: rest) = some split := by
  rw [ofTokens?]
  cases ofTokens? rest with
  | none => exact ⟨_, rfl⟩
  | some split => by_cases outranks : token.Outranks split.token <;> simp [outranks]

theorem isLastHighest_of_ofTokens? {tokens : List Token} {split : TokenSplit}
    (found : ofTokens? tokens = some split) : split.IsLastHighest := by
  induction tokens generalizing split with
  | nil => cases found
  | cons token rest ih =>
      rw [ofTokens?] at found
      cases inner : ofTokens? rest with
      | none =>
          rw [inner] at found
          cases found
          cases rest with
          | nil => exact ⟨by simp, by simp⟩
          | cons next rest =>
              obtain ⟨split, some⟩ := exists_ofTokens? next rest
              rw [inner] at some
              cases some
      | some later =>
          have highest := ih inner
          rw [inner] at found
          by_cases outranks : token.Outranks later.token
          · simp only [if_pos outranks] at found
            cases found
            refine ⟨by simp, ?_⟩
            intro other member
            apply outranks.of_not
            rw [row_of_ofTokens? inner] at member
            rcases List.mem_append.1 member with before | rest
            · exact highest.notOutranked other before
            rcases List.mem_cons.1 rest with rfl | after
            · exact fun self => self.asymm self
            · exact (highest.outranks other after).asymm
          · simp only [if_neg outranks] at found
            cases found
            exact ⟨List.forall_mem_cons.2 ⟨outranks, highest.notOutranked⟩, highest.outranks⟩

theorem ofTokens?_of_isLastHighest {before after : List Token} {token : Token}
    (notOutranked : ∀ other ∈ before, ¬ other.Outranks token)
    (outranks : ∀ other ∈ after, token.Outranks other) :
    ofTokens? (before ++ token :: after) = some ⟨before, token, after⟩ := by
  induction before with
  | nil =>
      rw [List.nil_append, ofTokens?]
      cases inner : ofTokens? after with
      | none => rfl
      | some split =>
          have member : split.token ∈ after := by
            rw [row_of_ofTokens? inner]
            exact List.mem_append_right _ List.mem_cons_self
          exact if_pos (outranks split.token member)
  | cons first before ih =>
      obtain ⟨firstNot, restNot⟩ := List.forall_mem_cons.1 notOutranked
      rw [List.cons_append, ofTokens?, ih restNot]
      exact if_neg firstNot

/-- The split of a row is its last token that no other token outranks. -/
theorem ofTokens?_eq_some_iff {tokens : List Token} {split : TokenSplit} :
    ofTokens? tokens = some split ↔
      tokens = split.before ++ split.token :: split.after ∧ split.IsLastHighest := by
  constructor
  · intro found
    exact ⟨row_of_ofTokens? found, isLastHighest_of_ofTokens? found⟩
  · rintro ⟨row, highest⟩
    rw [row]
    exact ofTokens?_of_isLastHighest highest.notOutranked highest.outranks

end TokenSplit

namespace Tree

/-- The root of the tree is the split of the row, and each subtree is the tree of one side. -/
inductive Splits : List Token → Text → Tree → Prop where
  | leaf (operand : Char) : Splits [] [operand] (.leaf [operand])
  | node {before after : List Token} {token : Token} {leftOperands rightOperands : Text}
      {left right : Tree} (notOutranked : ∀ other ∈ before, ¬ other.Outranks token)
      (outranks : ∀ other ∈ after, token.Outranks other)
      (leftSplits : Splits before leftOperands left)
      (rightSplits : Splits after rightOperands right) :
      Splits (before ++ token :: after) (leftOperands ++ rightOperands) (.node token left right)

theorem Splits.length {tokens : List Token} {operands : Text} {tree : Tree}
    (splits : Splits tokens operands tree) : operands.length = tokens.length + 1 := by
  induction splits with
  | leaf operand => rfl
  | node _ _ _ _ leftLength rightLength =>
      simp only [List.length_append, List.length_cons, leftLength, rightLength]
      omega

/-- The tokens of the tree of a row are the row. -/
theorem Splits.tokens_eq {tokens : List Token} {operands : Text} {tree : Tree}
    (splits : Splits tokens operands tree) : tree.tokens = tokens := by
  induction splits with
  | leaf operand => rfl
  | node _ _ _ _ leftStep rightStep => rw [Tree.tokens, leftStep, rightStep]

/-- The leaves of the tree of a row are its operands, one character each. -/
theorem Splits.operands_eq {tokens : List Token} {operands : Text} {tree : Tree}
    (splits : Splits tokens operands tree) : tree.operands = operands.map List.singleton := by
  induction splits with
  | leaf operand => rfl
  | node _ _ _ _ leftStep rightStep => rw [Tree.operands, leftStep, rightStep, List.map_append]

theorem ofSplit?_of_found {tokens : List Token} (operands : Text) {split : TokenSplit}
    (found : TokenSplit.ofTokens? tokens = some split) :
    ofSplit? tokens operands =
      match ofSplit? split.before (operands.take (split.before.length + 1)),
        ofSplit? split.after (operands.drop (split.before.length + 1)) with
      | some left, some right => some (.node split.token left right)
      | _, _ => none := by
  rw [ofSplit?.eq_def]
  split
  · rename_i missing
    rw [found] at missing
    cases missing
  · rename_i other same
    rw [found] at same
    cases same
    rfl

/-- The tree of a row is built by splitting it again and again. -/
theorem ofSplit?_of_splits {tokens : List Token} {operands : Text} {tree : Tree}
    (splits : Splits tokens operands tree) : ofSplit? tokens operands = some tree := by
  induction splits with
  | leaf operand =>
      rw [ofSplit?]
      rfl
  | @node before after token leftOperands rightOperands left right notOutranked outranks leftSplits
      rightSplits leftStep rightStep =>
      rw [ofSplit?_of_found _ (TokenSplit.ofTokens?_of_isLastHighest notOutranked outranks)]
      dsimp only
      rw [← leftSplits.length, List.take_left, List.drop_left, leftStep, rightStep]

/-- The row and its operands determine the tree. -/
theorem Splits.unique {tokens : List Token} {operands : Text} {first second : Tree}
    (one : Splits tokens operands first) (other : Splits tokens operands second) :
    first = second := by
  have same := ofSplit?_of_splits one
  rw [ofSplit?_of_splits other] at same
  exact (Option.some.inj same).symm

/-- A tree that is built splits the row. -/
theorem splits_of_ofSplit? {tokens : List Token} {operands : Text} {tree : Tree}
    (built : ofSplit? tokens operands = some tree) : Splits tokens operands tree := by
  fun_induction ofSplit? tokens operands generalizing tree with
  | case1 tokens found operand =>
      cases tokens with
      | nil =>
          cases built
          exact .leaf operand
      | cons token rest =>
          obtain ⟨split, some⟩ := TokenSplit.exists_ofTokens? token rest
          rw [found] at some
          cases some
  | case2 tokens operands found many => cases built
  | case3 tokens operands split found right left rightBuilt leftBuilt leftStep rightStep =>
      cases built
      obtain ⟨row, highest⟩ := TokenSplit.ofTokens?_eq_some_iff.1 found
      have whole := Splits.node highest.notOutranked highest.outranks (leftStep leftBuilt)
        (rightStep rightBuilt)
      rwa [List.take_append_drop, ← row] at whole
  | case4 tokens operands split found missing => cases built

/-- A row has a tree exactly if it has one operand more than tokens. -/
theorem exists_splits_iff (tokens : List Token) (operands : Text) :
    (∃ tree, Splits tokens operands tree) ↔ operands.length = tokens.length + 1 := by
  refine ⟨fun ⟨tree, splits⟩ => splits.length, fun enough => ?_⟩
  induction size : tokens.length using Nat.strongRecOn generalizing tokens operands with
  | ind size ih =>
      cases tokens with
      | nil =>
          obtain ⟨operand, rfl⟩ := List.length_eq_one_iff.1 enough
          exact ⟨_, .leaf operand⟩
      | cons token rest =>
          obtain ⟨⟨before, last, after⟩, found⟩ := TokenSplit.exists_ofTokens? token rest
          obtain ⟨row, notOutranked, outranks⟩ := TokenSplit.ofTokens?_eq_some_iff.1 found
          dsimp only at row notOutranked outranks
          rw [row] at enough size ⊢
          rw [List.length_append, List.length_cons] at enough size
          obtain ⟨left, leftSplits⟩ := ih before.length (by omega) before
            (operands.take (before.length + 1)) (by rw [List.length_take]; omega) rfl
          obtain ⟨right, rightSplits⟩ := ih after.length (by omega) after
            (operands.drop (before.length + 1)) (by rw [List.length_drop]; omega) rfl
          have whole := Splits.node notOutranked outranks leftSplits rightSplits
          rw [List.take_append_drop] at whole
          exact ⟨_, whole⟩

end Tree

end PolishNotation
