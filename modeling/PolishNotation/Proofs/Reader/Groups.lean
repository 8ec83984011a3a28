import PolishNotation.Links.Group
import PolishNotation.Proofs.Construction
import PolishNotation.Proofs.Grammar.Nesting

namespace PolishNotation

namespace Reader

variable {reader next last : Reader} {opened : List Nat} {added : List Token} {position : Nat}
  {character : Char}

/-- These are the fates of some open parentheses while a reader goes on and adds tokens. -/
inductive Follows (opened : List Nat) (added : List Token) (reader : Reader) : Prop where
  /-- All of them are still open, and no token is shallower. -/
  | inside (still : opened <:+ reader.opened)
      (deep : ∀ token ∈ added, (opened.length : Int) ≤ token.depth)
  /-- Some of them are closed, and an operator must follow before another group opens. -/
  | leaving (fewer : reader.opened.length < opened.length)
      (complete : reader.expectsOperand = false)
  /-- Some of them are closed, and a shallower token follows them. -/
  | outside (gone : ¬ opened <:+ reader.opened)
      (shallow : ∃ token ∈ added, token.depth < opened.length)

/-- A move leaves open parentheses open, leaves their group or stays outside of it. -/
theorem Follows.move (earlier : ∀ place ∈ opened, place < position)
    (follows : Follows opened added reader) (moves : reader.Moves position character next) :
    ∃ more, next.tokens.toList = reader.tokens.toList ++ more ∧
      Follows opened (added ++ more) next := by
  cases moves with
  | blank blank => exact ⟨[], by simp, by simpa using follows⟩
  | operand letter expects =>
      refine ⟨[], by simp, ?_⟩
      rw [List.append_nil]
      cases follows with
      | inside still deep => exact .inside still deep
      -- A closed group is complete, so no operand and no group may follow it.
      | leaving fewer complete => cases expects.symm.trans complete
      | outside gone shallow => exact .outside gone shallow
  | opening expects =>
      refine ⟨[], by simp, ?_⟩
      rw [List.append_nil]
      cases follows with
      | inside still deep => exact .inside (still.trans (List.suffix_cons _ _)) deep
      | leaving fewer complete => cases expects.symm.trans complete
      | outside gone shallow =>
          -- The new parenthesis stands behind all the old ones and is none of them.
          refine .outside (fun still => ?_) shallow
          rcases List.suffix_cons_iff.1 still with same | still
          · exact Nat.lt_irrefl _ (earlier position (same ▸ List.mem_cons_self))
          · exact gone still
  | @closing start outer startsWith complete =>
      refine ⟨[], by simp, ?_⟩
      rw [List.append_nil]
      cases follows with
      | inside still deep =>
          rw [startsWith] at still
          rcases List.suffix_cons_iff.1 still with same | still
          · exact .leaving (by simp [same]) complete
          · exact .inside still deep
      | leaving fewer _ =>
          rw [startsWith, List.length_cons] at fewer
          exact .leaving (Nat.lt_of_succ_lt fewer) complete
      | outside gone shallow =>
          rw [startsWith] at gone
          exact .outside (fun still => gone (still.trans (List.suffix_cons _ _))) shallow
  | operator operator complete =>
      refine ⟨[.ofOperator operator reader.depth position], by simp, ?_⟩
      cases follows with
      | inside still deep =>
          refine .inside still fun token member => ?_
          rcases List.mem_append.1 member with old | new
          · exact deep token old
          · rw [List.mem_singleton.1 new]
            exact Int.ofNat_le.2 still.length_le
      | leaving fewer _ =>
          refine .outside (fun still => ?_) ⟨_, List.mem_append_right _ List.mem_cons_self, ?_⟩
          · exact Nat.not_lt_of_le still.length_le fewer
          · exact Int.ofNat_lt.2 fewer
      | outside gone shallow =>
          obtain ⟨token, member, lower⟩ := shallow
          exact .outside gone ⟨token, List.mem_append_left _ member, lower⟩

/-- The open parentheses have one of the fates after any run. -/
theorem follows_of_run {before rest : Text} (earlier : ∀ place ∈ reader.opened, place < before.length)
    (read : reader.run before.length rest = .ok last) :
    ∃ added, last.tokens.toList = reader.tokens.toList ++ added ∧
      Follows reader.opened added last := by
  refine (run_invariant (fun next text => before.length ≤ text.length ∧
    ∃ added, next.tokens.toList = reader.tokens.toList ++ added ∧
      Follows reader.opened added next) before ?_ ?_ read).2
  · rintro reader next text character ⟨longer, added, tokens, follows⟩ moves
    obtain ⟨more, newTokens, newFollows⟩ :=
      follows.move (fun place member => Nat.lt_of_lt_of_le (earlier place member) longer) moves
    refine ⟨by rw [List.length_append]; omega, added ++ more, ?_, newFollows⟩
    rw [newTokens, tokens, List.append_assoc]
  · exact ⟨Nat.le_refl _, [], by simp, .inside List.suffix_rfl nofun⟩

/-- The same parentheses are open at two operators exactly if the depths agree and no shallower token
stands between the operators. -/
theorem opened_eq_iff {before rest : Text} (earlier : ∀ place ∈ reader.opened, place < before.length)
    (read : reader.run before.length rest = .ok last)
    (tokens : last.tokens.toList = reader.tokens.toList ++ added) :
    reader.opened = last.opened ↔
      reader.depth = last.depth ∧ ∀ token ∈ added, (reader.depth : Int) ≤ token.depth := by
  obtain ⟨found, same, follows⟩ := follows_of_run earlier read
  obtain rfl := List.append_cancel_left (tokens.symm.trans same)
  constructor
  · intro stays
    cases follows with
    | inside still deep => exact ⟨congrArg List.length stays, deep⟩
    | leaving fewer complete =>
        rw [stays] at fewer
        exact absurd fewer (Nat.lt_irrefl _)
    | outside gone shallow =>
        rw [stays] at gone
        exact absurd List.suffix_rfl gone
  · rintro ⟨sameDepth, deep⟩
    cases follows with
    | inside still _ => exact still.eq_of_length sameDepth
    | leaving fewer complete => exact absurd sameDepth (Nat.ne_of_gt fewer)
    | outside gone shallow =>
        obtain ⟨token, member, lower⟩ := shallow
        exact absurd (deep token member) (Int.not_le_of_gt lower)

/-- Two operators that a reader comes to stand directly between the same parentheses exactly if their
depths agree and no shallower token is added between them. -/
theorem samePair_iff {text front middle rest : Text} {first second : Reader}
    {firstOperator secondOperator : Operator} (balanced : Grammar.Balanced text)
    (place : text = front ++ firstOperator.symbol :: middle ++ secondOperator.symbol :: rest)
    (firstRun : start.run 0 front = .ok first)
    (secondRun : start.run 0 (front ++ firstOperator.symbol :: middle) = .ok second)
    (further : first.run front.length (firstOperator.symbol :: middle) = .ok second)
    (tokens : second.tokens.toList = first.tokens.toList ++ added) :
    Grammar.SamePair text (.ofOperator firstOperator first.depth front.length)
        (.ofOperator secondOperator second.depth
          (front ++ firstOperator.symbol :: middle).length) ↔
      first.depth = second.depth ∧ ∀ token ∈ added, (first.depth : Int) ≤ token.depth := by
  have opens := opens_of_run firstRun
  have laterOpens := opens_of_run secondRun
  have firstPlace : text =
      front ++ firstOperator.symbol :: (middle ++ secondOperator.symbol :: rest) := by
    rw [place, List.append_assoc, List.cons_append]
  have heads : first.opened.head? = second.opened.head? ↔ first.opened = second.opened :=
    ⟨opens.eq_of_head? laterOpens, congrArg List.head?⟩
  rw [Grammar.samePair_iff opens laterOpens balanced firstPlace place, heads,
    opened_eq_iff opens.lt_length further tokens]

/-- A run comes to every token with the tokens before it and at the depth of the token. -/
theorem exists_run_to_token {text : Text} (read : start.run 0 text = .ok last) {index : Nat}
    {token : Token} (found : last.tokens.toList[index]? = some token) :
    ∃ before operator after reader, text = before ++ Operator.symbol operator :: after ∧
      start.run 0 before = .ok reader ∧
      reader.run before.length (operator.symbol :: after) = .ok last ∧
      reader.tokens.toList = last.tokens.toList.take index ∧
      token = .ofOperator operator reader.depth before.length := by
  have lastTokens := (hasRead_start.run read).tokens
  rw [List.nil_append] at lastTokens
  rw [lastTokens] at found ⊢
  obtain ⟨before, operator, after, rfl, tokens, rfl⟩ := Grammar.exists_before_of_tokensOf found
  obtain ⟨reader, run, further⟩ := run_append_eq_ok_iff.1 read
  rw [Nat.zero_add] at further
  have hasRead := hasRead_start.run run
  rw [List.nil_append] at hasRead
  exact ⟨before, operator, after, reader, rfl, run, further, hasRead.tokens.trans tokens,
    by rw [hasRead.depth]⟩

end Reader

variable {count : Nat} {tokens : Vector Token count}

/-- The tokens from one index up to another one stand at the indices between them. -/
theorem forall_mem_drop_take_iff {first second : Fin count} {property : Token → Prop} :
    (∀ token ∈ (tokens.toList.take second).drop first, property token) ↔
      ∀ between : Fin count, first ≤ between → between < second → property (tokens.get between) := by
  constructor
  · intro every between after before
    refine every _ (List.mem_of_getElem? (i := between - first) ?_)
    rw [List.getElem?_drop, List.getElem?_take_of_lt (by omega), ← getElem?_toList tokens between]
    congr 1
    omega
  · intro every token member
    obtain ⟨offset, found⟩ := List.mem_iff_getElem?.1 member
    rw [List.getElem?_drop, List.getElem?_take] at found
    split at found
    · have inside : first + offset < count := by omega
      have same := getElem?_toList tokens ⟨first + offset, inside⟩
      rw [Option.some.inj (found.symm.trans same)]
      exact every _ (Nat.le_add_right _ _) ‹_›
    · cases found

/-- Two tokens share a group if they have the same depth and no token between them is less deep. -/
theorem sameGroup_iff_of_lt {first second : Fin count} (before : first < second) :
    SameGroup tokens first second ↔
      (tokens.get first).depth = (tokens.get second).depth ∧
        ∀ between : Fin count, first < between → between < second →
          (tokens.get first).depth ≤ (tokens.get between).depth := by
  rw [SameGroup, and_congr_right_iff]
  intro sameDepth
  constructor
  · intro deep between after before
    exact deep between (.inl ⟨Fin.le_of_lt after, Fin.le_of_lt before⟩)
  · intro deep between range
    by_cases start : between = first
    · rw [start]
    by_cases end_ : between = second
    · rw [end_, sameDepth]
    · exact deep between (by omega) (by omega)

/-- In a text that is read, two operators stand directly between the same parentheses exactly if their
tokens share a group. -/
theorem Expression.samePair_iff_sameGroup {text : Text} {expression : Expression}
    (read : ofText text = .ok expression) (row : tokens.toList = expression.tokens)
    {first second : Fin count} (before : first < second) :
    Grammar.SamePair text (tokens.get first) (tokens.get second) ↔
      SameGroup tokens first second := by
  obtain ⟨last, run, -, -, rfl⟩ := ofText_eq_ok_iff_run.1 read
  have secondFound := getElem?_toList tokens second
  rw [row] at secondFound
  obtain ⟨_, secondOperator, rest, secondReader, place, secondRun, -, secondTokens, secondToken⟩ :=
    Reader.exists_run_to_token run secondFound
  have firstFound : secondReader.tokens.toList[first.val]? = some (tokens.get first) := by
    rw [secondTokens, List.getElem?_take_of_lt before, ← getElem?_toList tokens first, row]
  obtain ⟨front, firstOperator, middle, firstReader, rfl, firstRun, further, firstTokens,
    firstToken⟩ := Reader.exists_run_to_token secondRun firstFound
  have added : secondReader.tokens.toList =
      firstReader.tokens.toList ++ (tokens.toList.take second).drop first := by
    rw [firstTokens, row, ← secondTokens, List.take_append_drop]
  have pairs := Reader.samePair_iff (balanced_of_ofText read) place firstRun secondRun further added
  have firstDepth : (tokens.get first).depth = firstReader.depth := by
    rw [firstToken]
    rfl
  have secondDepth : (tokens.get second).depth = secondReader.depth := by
    rw [secondToken]
    rfl
  rw [← firstToken, ← secondToken, forall_mem_drop_take_iff, ← Int.natCast_inj, ← firstDepth,
    ← secondDepth] at pairs
  rw [pairs, sameGroup_iff_of_lt before, and_congr_right_iff]
  intro sameDepth
  constructor
  · intro deep between after
    exact deep between (Fin.le_of_lt after)
  · intro deep between after
    rcases Fin.lt_or_eq_of_le after with after | rfl
    · exact deep between after
    · exact fun _ => Int.le_refl _

end PolishNotation
