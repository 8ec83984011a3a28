import PolishNotation.Proofs.Links.Operands
import PolishNotation.Proofs.Links.Unfolding
import PolishNotation.Proofs.Tree.Split

namespace PolishNotation

variable {count : Nat} {tokens : Vector Token count}

namespace LinkTable

variable {table filled : LinkTable tokens}

/-- The highest token is the only root. -/
theorem roots_eq_singleton (shows : table.Shows (Heads tokens count)) {top : Fin count}
    (highest : ∀ other, other ≠ top → Above tokens top other) : table.roots = [top] := by
  have free (index : Fin count) : table.isFree index = decide (index = top) := by
    rw [Bool.eq_iff_iff, isFree, Option.isNone_iff_eq_none, shows.parent_eq_none,
      decide_eq_true_iff]
    constructor
    · intro parentless
      by_contra different
      have rules : Rules tokens top index :=
        ⟨Ne.symm different, fun between range => highest between (by omega)⟩
      obtain ⟨place, -, heads, -⟩ := Heads.exists_place top.isLt index.isLt rules
      exact parentless place heads
    · rintro rfl place heads
      exact heads.rules.above.asymm (highest place.index heads.rules.1)
  have one : (List.finRange count).count top = 1 :=
    List.count_eq_one_of_mem (List.nodup_finRange count) (List.mem_finRange top)
  rw [roots, List.filter_congr fun index _ => free index, List.filter_eq, one]
  rfl

theorem exists_roots_eq_singleton (shows : table.Shows (Heads tokens count)) (some : 0 < count) :
    ∃ top, table.roots = [top] := by
  obtain ⟨top, -, highest⟩ := exists_highest tokens (fun _ => True) ⟨⟨0, some⟩, trivial⟩
  exact ⟨top, roots_eq_singleton shows fun other => highest other trivial⟩

end LinkTable

theorem getElem?_toList (tokens : Vector Token count) (index : Fin count) :
    tokens.toList[index.val]? = some (tokens.get index) := by
  rw [List.getElem?_eq_getElem (by simp)]
  rfl

/-- The tokens of a part of the row stand in this part. -/
theorem get_mem_of_toList {before row after : List Token}
    (whole : tokens.toList = before ++ row ++ after) {index : Fin count}
    (lower : before.length ≤ index.val) (upper : index.val < before.length + row.length) :
    tokens.get index ∈ row := by
  have found := getElem?_toList tokens index
  rw [whole, List.append_assoc, List.getElem?_append_right lower,
    List.getElem?_append_left (by omega)] at found
  exact List.mem_of_getElem? found

/-- The tokens next to a part of the row stand above all tokens inside. -/
def IsBounded (tokens : Vector Token count) (low high : Nat) : Prop :=
  ∀ outer index : Fin count, outer.val + 1 = low ∨ outer.val = high →
    low ≤ index.val → index.val < high → Above tokens outer index

/-- The top of a part of the row stands above all other tokens inside. -/
structure IsTop (tokens : Vector Token count) (low high : Nat) (top : Fin count) : Prop where
  lower : low ≤ top.val
  upper : top.val < high
  highest : ∀ other : Fin count, low ≤ other.val → other.val < high → other ≠ top →
    Above tokens top other

namespace IsTop

variable {low high : Nat} {top : Fin count}

/-- In a bounded part, the top rules all tokens before it and no others before them. -/
theorem rules_before_iff (isTop : IsTop tokens low high top) (bounded : IsBounded tokens low high)
    {other : Fin count} :
    other < top ∧ Rules tokens top other ↔ low ≤ other.val ∧ other.val < top.val := by
  have lower := isTop.lower
  have upper := isTop.upper
  constructor
  · intro covered
    obtain ⟨before, rules⟩ := covered
    apply And.intro ?_ before
    by_contra outside
    -- The token in front of the part would have to stand below the top.
    obtain ⟨outer, same⟩ : ∃ outer : Fin count, outer.val + 1 = low :=
      ⟨⟨low - 1, by omega⟩, by dsimp only; omega⟩
    exact (bounded outer top (.inl same) lower upper).asymm (rules.2 outer (by omega))
  · rintro ⟨inside, before⟩
    exact ⟨before, .of_before before fun between after before =>
      isTop.highest between (by omega) (by omega) (by omega)⟩

theorem rules_after_iff (isTop : IsTop tokens low high top) (bounded : IsBounded tokens low high)
    {other : Fin count} :
    top < other ∧ Rules tokens top other ↔ top.val + 1 ≤ other.val ∧ other.val < high := by
  have lower := isTop.lower
  have upper := isTop.upper
  constructor
  · rintro ⟨after, rules⟩
    refine ⟨after, ?_⟩
    by_contra outside
    obtain ⟨outer, same⟩ : ∃ outer : Fin count, outer.val = high := ⟨⟨high, by omega⟩, rfl⟩
    exact (bounded outer top (.inr same) lower upper).asymm (rules.2 outer (by omega))
  · rintro ⟨after, inside⟩
    exact ⟨after, .of_after after fun between after before =>
      isTop.highest between (by omega) (by omega) (by omega)⟩

/-- The top bounds the part before it. -/
theorem bounded_before (isTop : IsTop tokens low high top) (bounded : IsBounded tokens low high) :
    IsBounded tokens low top.val := by
  have upper := isTop.upper
  intro outer index next lower before
  rcases next with start | stop
  · exact bounded outer index (.inl start) lower (by omega)
  · rw [Fin.ext stop]
    exact isTop.highest index lower (by omega) (by omega)

/-- The top bounds the part after it. -/
theorem bounded_after (isTop : IsTop tokens low high top) (bounded : IsBounded tokens low high) :
    IsBounded tokens (top.val + 1) high := by
  have lower := isTop.lower
  intro outer index next after inside
  rcases next with start | stop
  · rw [Fin.ext (Nat.succ.inj start)]
    exact isTop.highest index (by omega) inside (by omega)
  · exact bounded outer index (.inr stop) (by omega) inside

end IsTop

/-- A part of the row is represented by its top, or by its only operand if it has no token. -/
inductive Represents (tokens : Vector Token count) (operands : Text) (low high : Nat) :
    Child count → Prop where
  | operand {operand : Char} (empty : low = high) (given : operands[low]? = some operand) :
      Represents tokens operands low high (.operand [operand])
  | operator {top : Fin count} (isTop : IsTop tokens low high top) :
      Represents tokens operands low high (.operator top)

namespace LinkTable

variable {table filled : LinkTable tokens} {operands : Text} {low high : Nat}

/-- A slot holds what represents the part of the row that its operator rules on this side. -/
theorem slot_of_represents (shows : table.Shows (Heads tokens count))
    (fillsGaps : table.FillsGaps filled operands) (place : Place count)
    {child : Child count} (gap : low = high → place.gap = low)
    (part : ∀ other, place.Faces other ∧ Rules tokens place.index other ↔
      low ≤ other.val ∧ other.val < high)
    (represents : Represents tokens operands low high child) :
    filled.slot place = some child := by
  rw [fillsGaps]
  cases represents with
  | operand empty given =>
      have headless : table.slot place = none := by
        rw [shows.slot_eq_none]
        intro index heads
        have inside := (part index).1 ⟨heads.faces, heads.rules⟩
        omega
      rw [headless, Option.none_or, gap empty, given]
      rfl
  | @operator top isTop =>
      obtain ⟨faces, rules⟩ := (part top).2 ⟨isTop.lower, isTop.upper⟩
      have heads : Heads tokens count place top :=
        ⟨top.isLt, faces, rules, fun other _ otherFaces otherRules different => by
          obtain ⟨lower, upper⟩ := (part other).1 ⟨otherFaces, otherRules⟩
          exact isTop.highest other lower upper different⟩
      rw [(shows.slot_iff _ _).2 ⟨top, rfl, heads⟩, Option.some_or]

end LinkTable

/-- The token that splits a part of the row is its top. -/
theorem exists_isTop {before rowBefore rowAfter after : List Token} {token : Token}
    (whole : tokens.toList = before ++ (rowBefore ++ token :: rowAfter) ++ after)
    (notOutranked : ∀ other ∈ rowBefore, ¬ other.Outranks token)
    (outranks : ∀ other ∈ rowAfter, token.Outranks other) :
    ∃ top : Fin count, top.val = before.length + rowBefore.length ∧ tokens.get top = token ∧
      IsTop tokens before.length (top.val + 1 + rowAfter.length) top := by
  have length := congrArg List.length whole
  simp only [Vector.length_toList, List.length_append, List.length_cons] at length
  obtain ⟨top, place⟩ : ∃ top : Fin count, top.val = before.length + rowBefore.length :=
    ⟨⟨before.length + rowBefore.length, by omega⟩, rfl⟩
  have found : tokens.get top = token := by
    have entry := getElem?_toList tokens top
    rw [whole, List.append_assoc, place, List.getElem?_append_right (by omega)] at entry
    simpa using entry.symm
  refine ⟨top, place, found, by omega, by omega, fun other lower upper different => ?_⟩
  rcases Nat.lt_or_gt_of_ne (Fin.val_ne_of_ne different) with earlier | later
  · have part : tokens.toList = before ++ rowBefore ++ (token :: rowAfter ++ after) := by
      simpa using whole
    have member : tokens.get other ∈ rowBefore := get_mem_of_toList part lower (by omega)
    exact .inr ⟨earlier, found ▸ notOutranked _ member⟩
  · have part : tokens.toList = before ++ rowBefore ++ [token] ++ rowAfter ++ after := by
      simpa using whole
    have member : tokens.get other ∈ rowAfter :=
      get_mem_of_toList part (by simp; omega) (by simp; omega)
    exact .inl (found ▸ outranks _ member)

namespace LinkTable

variable {table filled : LinkTable tokens} {operands : Text} {low high : Nat}

/-- Every bounded part of the row unfolds to the tree that splits it. -/
theorem exists_unfolds_of_splits (shows : table.Shows (Heads tokens count))
    (fillsGaps : table.FillsGaps filled operands)
    {row : List Token} {rowOperands : Text} {tree : Tree}
    (splits : Tree.Splits row rowOperands tree)
    {before after : List Token} {operandsBefore operandsAfter : Text}
    (whole : tokens.toList = before ++ row ++ after)
    (wholeOperands : operands = operandsBefore ++ rowOperands ++ operandsAfter)
    (start : before.length = low) (operandsStart : operandsBefore.length = low)
    (stop : low + row.length = high) (bounded : IsBounded tokens low high) :
    ∃ child, filled.Unfolds child tree ∧ Represents tokens operands low high child := by
  induction splits generalizing before after operandsBefore operandsAfter low high with
  | leaf operand =>
      refine ⟨_, .operand _, .operand stop ?_⟩
      rw [wholeOperands, ← operandsStart, List.append_assoc,
        List.getElem?_append_right (Nat.le_refl _)]
      simp
  | @node rowBefore rowAfter token leftOperands rightOperands left right notOutranked outranks
      leftSplits rightSplits leftStep rightStep =>
      have leftLength := leftSplits.length
      rw [List.length_append, List.length_cons] at stop
      -- The token of the node is the top of this part, and it bounds the parts on its sides.
      obtain ⟨top, place, found, isTop⟩ := exists_isTop whole notOutranked outranks
      have last : top.val + 1 + rowAfter.length = high := by omega
      rw [start] at place
      rw [start, last] at isTop
      have leftWhole : tokens.toList = before ++ rowBefore ++ (token :: rowAfter ++ after) := by
        simpa using whole
      have leftGiven :
          operands = operandsBefore ++ leftOperands ++ (rightOperands ++ operandsAfter) := by
        simpa using wholeOperands
      have rightWhole : tokens.toList = before ++ rowBefore ++ [token] ++ rowAfter ++ after := by
        simpa using whole
      have rightGiven :
          operands = operandsBefore ++ leftOperands ++ rightOperands ++ operandsAfter := by
        simpa using wholeOperands
      obtain ⟨leftChild, leftUnfolds, leftRepresents⟩ := leftStep
        leftWhole leftGiven start operandsStart place.symm (isTop.bounded_before bounded)
      obtain ⟨rightChild, rightUnfolds, rightRepresents⟩ := rightStep
        rightWhole rightGiven (by simp; omega) (by simp; omega) last (isTop.bounded_after bounded)
      have leftSlot := slot_of_represents shows fillsGaps ⟨.left, top⟩ (fun empty => empty.symm)
        (fun _ => isTop.rules_before_iff bounded) leftRepresents
      have rightSlot := slot_of_represents shows fillsGaps ⟨.right, top⟩ (fun _ => rfl)
        (fun _ => isTop.rules_after_iff bounded) rightRepresents
      have unfolds : filled.Unfolds (.operator top) (.node token left right) :=
        found ▸ .operator leftSlot rightSlot leftUnfolds rightUnfolds
      exact ⟨.operator top, unfolds, .operator isTop⟩

theorem root_of_roots {root : Fin count} (single : table.roots = [root]) :
    table.root = .ok root := by
  rw [LinkTable.root, single]

theorem roots_congr (same : filled.parent = table.parent) : filled.roots = table.roots := by
  have free : filled.isFree = table.isFree := by
    funext index
    rw [isFree, isFree, same]
  rw [roots, roots, free]

/-- The links and the operands of a whole row form the tree that splits it. -/
theorem result_complete_of_splits (shows : table.Shows (Heads tokens count)) (some : 0 < count)
    {tree : Tree} (splits : Tree.Splits tokens.toList operands tree) :
    (table.complete operands).result = .ok tree := by
  have length : tokens.toList.length = count := by simp
  have enough := splits.length
  rw [length] at enough
  obtain ⟨filled, attached, parents, fillsGaps⟩ := exists_attachOperands shows some enough
  have bounded : IsBounded tokens 0 count := by
    intro outer index next
    omega
  have whole : tokens.toList = [] ++ tokens.toList ++ [] := by simp
  have given : operands = [] ++ operands ++ [] := by simp
  have start : ([] : List Token).length = 0 := rfl
  have operandsStart : ([] : Text).length = 0 := rfl
  obtain ⟨child, unfolds, represents⟩ := exists_unfolds_of_splits shows fillsGaps splits whole
    given start operandsStart (by simp) bounded
  cases represents with
  | operand empty given => omega
  | @operator top isTop =>
      have single := roots_eq_singleton shows fun other =>
        isTop.highest other (Nat.zero_le _) other.isLt
      have root := root_of_roots ((roots_congr parents).trans single)
      rw [complete, attached]
      show filled.tree = .ok tree
      rw [LinkTable.tree, root]
      simp only [treeAt?_of_unfolds unfolds]

/-- A fault of the operands is the fault of the whole construction. -/
theorem result_complete_of_operandFault {fault : Fault}
    (found : operandFault tokens table.emptyPlaces operands = some fault) :
    (table.complete operands).result = .error fault := by
  rw [complete, attachOperands_eq, found]

/-- A wrong number of operands is the only fault of a row. -/
theorem exists_complete_error (shows : table.Shows (Heads tokens count)) (some : 0 < count)
    (wrong : operands.length ≠ count + 1) :
    ∃ fault, (table.complete operands).result = .error fault ∧ fault.kind = .ambiguous ∧
      fault.cause ≠ .endlessTree := by
  cases found : operandFault tokens table.emptyPlaces operands with
  | none =>
      exact absurd ((operandFault_eq_none.1 found).trans (length_emptyPlaces shows some)) wrong
  | some fault =>
      exact ⟨fault, result_complete_of_operandFault found, kind_of_operandFault found⟩

end LinkTable

namespace Expression

/-- The tree of a non-empty row comes from the linked operators. -/
theorem exists_table (operands : Text) (token : Token) (rest : List Token) :
    ∃ table, LinkTable.linkOperators (token :: rest).toArray.toVector = some table ∧
      table.Shows (Heads (token :: rest).toArray.toVector (token :: rest).toArray.size) ∧
      Expression.tree ⟨operands, token :: rest⟩ = (table.complete operands).result := by
  obtain ⟨table, linked, shows⟩ := LinkTable.exists_linkOperators (token :: rest).toArray.toVector
  refine ⟨table, linked, shows, ?_⟩
  rw [Expression.tree, construct, if_neg (by simp)]
  dsimp only
  rw [linked]

/-- An expression has the tree that splits its row of tokens. -/
theorem tree_of_splits {tokens : List Token} {operands : Text} {tree : Tree}
    (splits : Tree.Splits tokens operands tree) :
    Expression.tree ⟨operands, tokens⟩ = .ok tree := by
  cases tokens with
  | nil =>
      obtain ⟨operand, rfl⟩ := List.length_eq_one_iff.1 splits.length
      rw [splits.unique (.leaf operand)]
      rfl
  | cons token rest =>
      obtain ⟨table, -, shows, same⟩ := exists_table operands token rest
      rw [same]
      exact LinkTable.result_complete_of_splits shows (by simp) (by simpa using splits)

/-- Without one operand more than tokens there is no tree, and the fault is neither about the root nor
about links without an end. -/
theorem exists_tree_error {tokens : List Token} {operands : Text}
    (wrong : operands.length ≠ tokens.length + 1) :
    ∃ fault, Expression.tree ⟨operands, tokens⟩ = .error fault ∧ fault.kind = .ambiguous ∧
      fault.cause ≠ .endlessTree := by
  cases tokens with
  | nil =>
      match operands with
      | [] => exact ⟨_, rfl, rfl, nofun⟩
      | [_] => exact absurd rfl wrong
      | _ :: _ :: _ => exact ⟨_, rfl, rfl, nofun⟩
  | cons token rest =>
      obtain ⟨table, -, shows, same⟩ := exists_table operands token rest
      rw [same]
      exact LinkTable.exists_complete_error shows (by simp) (by simpa using wrong)

/-- Every tree that is built splits the row of tokens. -/
theorem splits_of_tree {expression : Expression} {tree : Tree}
    (built : expression.tree = .ok tree) :
    Tree.Splits expression.tokens expression.operands tree := by
  by_cases enough : expression.operands.length = expression.tokens.length + 1
  · obtain ⟨found, splits⟩ := (Tree.exists_splits_iff _ _).2 enough
    cases built.symm.trans (tree_of_splits splits)
    exact splits
  · obtain ⟨fault, failed, -⟩ := exists_tree_error enough
    cases built.symm.trans failed

/-- Whatever the operands and the tokens are, the links of their tree end. -/
theorem cause_ne_endlessTree {expression : Expression} {fault : Fault}
    (failed : expression.tree = .error fault) : fault.cause ≠ .endlessTree := by
  by_cases enough : expression.operands.length = expression.tokens.length + 1
  · obtain ⟨found, splits⟩ := (Tree.exists_splits_iff _ _).2 enough
    cases failed.symm.trans (tree_of_splits splits)
  · obtain ⟨found, other, -, endless⟩ := exists_tree_error enough
    cases failed.symm.trans other
    exact endless

/-- The linked operators of a non-empty row have a single root. -/
theorem exists_single_root (tokens : List Token) :
    tokens = [] ∨ ∃ table root,
      LinkTable.linkOperators tokens.toArray.toVector = some table ∧ table.roots = [root] := by
  cases tokens with
  | nil => exact .inl rfl
  | cons token rest =>
      obtain ⟨table, linked, shows, -⟩ := exists_table [] token rest
      obtain ⟨root, single⟩ := LinkTable.exists_roots_eq_singleton shows (by simp)
      exact .inr ⟨table, root, linked, single⟩

/-- The passes build the tree of the split of any row with one operand more than tokens. Whatever
the operands are, the linked operators have one root, so no fault is about the root. -/
theorem tree_eq_ofSplit? (operands : Text) (tokens : List Token) :
    ((∃ tree, Expression.tree ⟨operands, tokens⟩ = .ok tree) ↔
        operands.length = tokens.length + 1) ∧
      (∀ tree, Expression.tree ⟨operands, tokens⟩ = .ok tree ↔
        Tree.ofSplit? tokens operands = some tree) ∧
      (tokens = [] ∨ ∃ table root,
        LinkTable.linkOperators tokens.toArray.toVector = some table ∧ table.roots = [root]) ∧
      ¬ ∃ fault, Expression.tree ⟨operands, tokens⟩ = .error fault ∧
        fault.kind = .noSingleRoot := by
  by_cases enough : operands.length = tokens.length + 1
  · obtain ⟨found, splits⟩ := (Tree.exists_splits_iff tokens operands).2 enough
    rw [tree_of_splits splits, Tree.ofSplit?_of_splits splits]
    exact ⟨by simp [enough], by simp, exists_single_root tokens, by simp⟩
  · have treeless : Tree.ofSplit? tokens operands = none := by
      rw [Option.eq_none_iff_forall_ne_some]
      intro tree built
      exact enough (Tree.splits_of_ofSplit? built).length
    obtain ⟨fault, failed, kind, -⟩ := exists_tree_error enough
    rw [failed, treeless]
    exact ⟨by simp [enough], by simp, exists_single_root tokens, by simp [kind]⟩

end Expression

end PolishNotation
