import PolishNotation.Proofs.Grammar.Meaning

namespace PolishNotation

variable {character : Char} {inner word : Text}

/-- The changed text has a word in the place of a letter that stands behind this many others. -/
def Text.ReplacesLetter (index : Nat) (character : Char) (word text changed : Text) : Prop :=
  ∃ front back, text = front ++ character :: back ∧ front.countP isLetter = index ∧
    changed = front ++ word ++ back

/-- The place of the letter moves behind the letters in front of the text. -/
theorem Text.ReplacesLetter.context {index : Nat} {text changed : Text}
    (replaces : ReplacesLetter index character word text changed) (before after : Text) :
    ReplacesLetter (before.countP isLetter + index) character word (before ++ text ++ after)
      (before ++ changed ++ after) := by
  obtain ⟨front, back, rfl, rfl, rfl⟩ := replaces
  exact ⟨before ++ front, back ++ after, by simp, by simp, by simp⟩

theorem Text.countP_isLetter_compact (text : Text) :
    text.compact.countP isLetter = text.countP isLetter := by
  rw [List.countP_eq_length_filter, List.countP_eq_length_filter, text.filter_isLetter_compact]

namespace Grammar

/-- A text and its term have the same number of letters. -/
theorem Layered.countP_isLetter {layer : Layer} {text : Text} {term : Term}
    (layered : Layered layer text term) :
    term.postorder.countP isLetter = text.countP isLetter := by
  induction layered with
  | operand letter => rfl
  | group inner ih => simpa [Expression.opening_isPlain, Expression.closing_isPlain] using ih
  | ofFactor factor ih => exact ih
  | ofProduct product ih => exact ih
  | @product operator leftText rightText left right tight _ _ leftStep rightStep =>
      simp [Term.postorder, operator.symbol_isPlain, leftStep, rightStep]
  | @sum operator leftText rightText left right loose _ _ leftStep rightStep =>
      simp [Term.postorder, operator.symbol_isPlain, leftStep, rightStep]

/-- With an inner text in parentheses in the place of the letter, the text belongs to the layer and
its term has the word of the inner text in the place of the letter. -/
def Substitutes (layer : Layer) (before : Text) (character : Char) (after inner word : Text)
    (term : Term) : Prop :=
  ∃ changed, Layered layer
      (before ++ Expression.opening :: inner ++ Expression.closing :: after) changed ∧
    Text.ReplacesLetter (before.countP isLetter) character word term.postorder changed.postorder

/-- A letter between parentheses stands in the text inside. -/
theorem exists_of_group {text before after : Text} (letter : isLetter character = true)
    (same : Expression.opening :: text ++ [Expression.closing] = before ++ character :: after) :
    ∃ front back, text = front ++ character :: back ∧ before = Expression.opening :: front ∧
      after = back ++ [Expression.closing] := by
  have plain := ne_parenthesis_of_isLetter letter
  rcases append_eq_append_cons_iff.1 same with ⟨back, inside, rfl⟩ | ⟨back, -, outside⟩
  · rcases List.cons_eq_append_iff.1 inside with ⟨-, first⟩ | ⟨front, rfl, behind⟩
    · exact absurd (List.cons.inj first).1 plain.1
    · exact ⟨front, back, behind, rfl, rfl⟩
  · have member : character ∈ [Expression.closing] := by
      rw [outside]
      simp
    exact absurd (List.mem_singleton.1 member) plain.2

/-- A letter of a joined text stands in the left part or in the right part. -/
theorem exists_of_join {leftText rightText before after : Text} {operator : Operator}
    (letter : isLetter character = true)
    (same : leftText ++ operator.symbol :: rightText = before ++ character :: after) :
    (∃ back, leftText = before ++ character :: back ∧ after = back ++ operator.symbol :: rightText) ∨
      ∃ front, rightText = front ++ character :: after ∧
        before = leftText ++ operator.symbol :: front := by
  rcases append_eq_append_cons_iff.1 same with inLeft | ⟨front, rfl, inRight⟩
  · exact .inl inLeft
  rcases List.cons_eq_append_iff.1 inRight with ⟨-, first⟩ | ⟨rest, rfl, behind⟩
  · rw [(List.cons.inj first).1, operator.symbol_isPlain.2.1] at letter
    cases letter
  · exact .inr ⟨rest, behind, rfl⟩

/-- A text that is joined from two parts admits the inner text wherever its parts do. -/
theorem substitutes_join {layer leftLayer rightLayer : Layer} {leftText rightText : Text}
    {left right : Term} {operator : Operator} (letter : isLetter character = true)
    (join : ∀ {leftText rightText : Text} {left right : Term}, Layered leftLayer leftText left →
      Layered rightLayer rightText right →
      Layered layer (leftText ++ operator.symbol :: rightText) (.binary operator left right))
    (leftLayered : Layered leftLayer leftText left)
    (rightLayered : Layered rightLayer rightText right)
    (leftStep : ∀ {before after : Text}, leftText = before ++ character :: after →
      Substitutes leftLayer before character after inner word left)
    (rightStep : ∀ {before after : Text}, rightText = before ++ character :: after →
      Substitutes rightLayer before character after inner word right)
    {before after : Text} (same : leftText ++ operator.symbol :: rightText =
      before ++ character :: after) :
    Substitutes layer before character after inner word (.binary operator left right) := by
  rcases exists_of_join letter same with ⟨back, inLeft, rfl⟩ | ⟨front, inRight, rfl⟩
  · obtain ⟨changed, layered, replaces⟩ := leftStep inLeft
    refine ⟨.binary operator changed right, by simpa using join layered rightLayered, ?_⟩
    simpa [Term.postorder] using replaces.context [] (right.postorder ++ [operator.symbol])
  · obtain ⟨changed, layered, replaces⟩ := rightStep inRight
    refine ⟨.binary operator left changed, by simpa using join leftLayered layered, ?_⟩
    have place := replaces.context left.postorder [operator.symbol]
    rw [leftLayered.countP_isLetter] at place
    simpa [Term.postorder, operator.symbol_isPlain] using place

/-- The inner text may stand in the place of every letter of a text. -/
theorem Layered.substitutes {layer : Layer} {text : Text} {term innerTerm : Term}
    (layered : Layered layer text term) (innerSum : Layered .sum inner innerTerm)
    (letter : isLetter character = true) {before after : Text}
    (same : text = before ++ character :: after) :
    Substitutes layer before character after inner innerTerm.postorder term := by
  induction layered generalizing before after with
  | operand _ =>
      obtain ⟨rfl, single⟩ | ⟨_, -, impossible⟩ := List.cons_eq_append_iff.1 same
      · cases single
        exact ⟨innerTerm, .group innerSum, [], [], rfl, rfl, by simp⟩
      · simp at impossible
  | group sum ih =>
      obtain ⟨front, back, inside, rfl, rfl⟩ := exists_of_group letter same
      obtain ⟨changed, layered, replaces⟩ := ih inside
      refine ⟨changed, by simpa using Layered.group layered, ?_⟩
      simpa [Expression.opening_isPlain] using replaces
  | ofFactor factor ih =>
      obtain ⟨changed, layered, replaces⟩ := ih same
      exact ⟨changed, .ofFactor layered, replaces⟩
  | ofProduct product ih =>
      obtain ⟨changed, layered, replaces⟩ := ih same
      exact ⟨changed, .ofProduct layered, replaces⟩
  | product tight left right leftStep rightStep =>
      exact substitutes_join letter (.product tight) left right leftStep rightStep same
  | sum loose left right leftStep rightStep =>
      exact substitutes_join letter (.sum loose) left right leftStep rightStep same

end Grammar

/-- An expression in parentheses stands for its own result in the place of a letter. -/
theorem toPostfix_of_substitution {before after output innerOutput : Text}
    (letter : isLetter character = true)
    (converted : toPostfix (before ++ character :: after) = .ok output)
    (innerConverted : toPostfix inner = .ok innerOutput) :
    ∃ changed, toPostfix
        (before ++ Expression.opening :: inner ++ Expression.closing :: after) = .ok changed ∧
      Text.ReplacesLetter (before.countP isLetter) character innerOutput output changed := by
  obtain ⟨term, means, rfl⟩ := toPostfix_eq_ok_iff.1 converted
  obtain ⟨innerTerm, innerMeans, rfl⟩ := toPostfix_eq_ok_iff.1 innerConverted
  rw [Grammar.Means, Text.compact_append, Text.compact_cons (isBlank_of_isLetter letter)] at means
  obtain ⟨changed, layered, replaces⟩ := means.substitutes innerMeans letter rfl
  refine ⟨changed.postorder, toPostfix_of_means ?_, ?_⟩
  · simpa [Grammar.Means, Text.compact_append, Text.compact_cons, Expression.opening_isPlain,
      Expression.closing_isPlain] using layered
  · rwa [Text.countP_isLetter_compact] at replaces

/-- A letter between looser and tighter operators may become a sum with parentheses of its own. -/
theorem toPostfix_of_substitution_nested :
    isLetter 'b' = true ∧ toPostfix "A*(b -C)*b".toList = .ok "AbC-*b*".toList ∧
      toPostfix "X+ (Y-z)".toList = .ok "XYz-+".toList ∧
      ∃ changed, toPostfix "A*((X+ (Y-z)) -C)*b".toList = .ok changed ∧
        Text.ReplacesLetter 1 'b' "XYz-+".toList "AbC-*b*".toList changed := by
  have letter : isLetter 'b' = true := rfl
  have converted : toPostfix ("A*(".toList ++ 'b' :: " -C)*b".toList) = .ok "AbC-*b*".toList := by
    rfl
  have innerConverted : toPostfix "X+ (Y-z)".toList = .ok "XYz-+".toList := by rfl
  exact ⟨letter, converted, innerConverted,
    toPostfix_of_substitution letter converted innerConverted⟩

end PolishNotation
