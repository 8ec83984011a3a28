import PolishNotation.Links.Group
import PolishNotation.Proofs.Links.Within

namespace PolishNotation

variable {count : Nat} {tokens : Vector Token count}

/-- What stands below the head of a place is what the operator of the place rules on this side. -/
theorem Heads.faces_and_rules_iff {place : Place count} {top index : Fin count}
    (heads : Heads tokens count place top) :
    place.Faces index ∧ Rules tokens place.index index ↔ index = top ∨ Rules tokens top index := by
  constructor
  · rintro ⟨faces, rules⟩
    by_cases same : index = top
    · exact .inl same
    · exact .inr (heads.rules_of_rules index.isLt faces rules same)
  · rintro (rfl | below)
    · exact ⟨heads.faces, heads.rules⟩
    · have rules := heads.rules.trans below
      refine ⟨?_, rules⟩
      by_contra behind
      -- Otherwise the operator of the place would stand on the way from the head to the token.
      have passed := Place.between_of_not_faces heads.faces behind
      exact (below.2 place.index passed.symm).asymm heads.rules.above

/-- A token rules a token of its group if it stands above those of the group on the way. -/
theorem SameGroup.rules_of_highest {top index : Fin count} (same : SameGroup tokens top index)
    (highest : ∀ other, SameGroup tokens top other →
      top < other ∧ other ≤ index ∨ index ≤ other ∧ other < top → Above tokens top other)
    (different : index ≠ top) : Rules tokens top index := by
  refine ⟨different.symm, fun between range => ?_⟩
  have bound := same.2 between (by omega)
  by_cases deeper : (tokens.get top).depth < (tokens.get between).depth
  · exact above_iff.2 (.inl deeper)
  · have group : SameGroup tokens top between :=
      ⟨by omega, fun other inner => same.2 other (by omega)⟩
    exact highest between group range

/-- Two sorted rows and an operator between them make one sorted row. -/
theorem pairwise_lt_append_cons {before after : List (Fin count)} {index : Fin count}
    (leftSorted : before.Pairwise (· < ·)) (rightSorted : after.Pairwise (· < ·))
    (lower : ∀ other ∈ before, other < index) (upper : ∀ other ∈ after, index < other) :
    (before ++ index :: after).Pairwise (· < ·) := by
  refine List.pairwise_append.2 ⟨leftSorted, List.pairwise_cons.2 ⟨upper, rightSorted⟩, ?_⟩
  intro first inBefore second inRest
  rcases List.mem_cons.1 inRest with rfl | inAfter
  · exact lower first inBefore
  · exact Fin.lt_trans (lower first inBefore) (upper second inAfter)

/-- A token of the same group that an operator rules on a side is below its head in the group. -/
theorem exists_linkedWithin {place : Place count} {index : Fin count} (faces : place.Faces index)
    (same : SameGroup tokens place.index index) (rules : Rules tokens place.index index) :
    ∃ top, LinkedWithin tokens count place top := by
  obtain ⟨top, heads⟩ := Heads.exists_of_rules index.isLt faces rules
  have upper := heads.rules.above.depth_le
  have lower : (tokens.get top).depth ≤ (tokens.get index).depth := by
    by_cases equal : index = top
    · rw [equal]
    · exact (heads.highest index index.isLt faces rules equal).depth_le
  have sameDepth := same.1
  exact ⟨top, place.index.isLt, by omega, heads⟩

/-- A token that another one of its group rules has a parent in the group. -/
theorem exists_place_linkedWithin {limit : Nat} {upper lower : Fin count}
    (upperInside : upper.val < limit) (lowerInside : lower.val < limit)
    (same : SameGroup tokens upper lower) (rules : Rules tokens upper lower) :
    ∃ place, LinkedWithin tokens limit place lower := by
  obtain ⟨place, inside, heads, upperDepth, lowerDepth⟩ :=
    Heads.exists_place_between upperInside lowerInside rules
  have sameDepth := same.1
  exact ⟨place, inside, by omega, heads⟩

namespace LinkedWithin

variable {limit : Nat} {place : Place count} {child : Fin count}
  (linked : LinkedWithin tokens limit place child)

include linked

/-- A link joins two tokens of one group. -/
theorem sameGroup : SameGroup tokens place.index child :=
  (linked.2.2.rules.sameGroup linked.2.1).symm

/-- A child on the right binds tighter than its parent, and a child on the left not looser. -/
theorem precedence :
    match place.side with
    | .left => ¬ (tokens.get place.index).TighterThan (tokens.get child)
    | .right => (tokens.get child).TighterThan (tokens.get place.index) := by
  obtain ⟨-, sameDepth, heads⟩ := linked
  have faces := heads.faces
  have above := above_iff.1 heads.rules.above
  rcases place with ⟨side, target⟩
  cases side with
  | left =>
      rw [Place.faces_left] at faces
      simp only [Token.TighterThan] at *
      omega
  | right =>
      rw [Place.faces_right] at faces
      simp only [Token.TighterThan] at *
      omega

end LinkedWithin

namespace LinkTable

variable {table : LinkTable tokens}

/-- This row lists the tokens of a group that an operator rules, and the operator itself. -/
def IsRowBelow (table : LinkTable tokens) (index : Fin count) (row : List (Fin count)) : Prop :=
  table.InOrder (some (.operator index)) row ∧ row.Pairwise (· < ·) ∧
    ∀ other, other ∈ row ↔
      SameGroup tokens index other ∧ (other = index ∨ Rules tokens index other)

namespace Shows

/-- A slot holds the tokens of the group that its operator rules on this side. -/
theorem exists_inOrder_slot (shows : table.Shows (LinkedWithin tokens count)) (place : Place count)
    (below : ∀ child, LinkedWithin tokens count place child → ∃ row, table.IsRowBelow child row) :
    ∃ row, table.InOrder (table.slot place) row ∧ row.Pairwise (· < ·) ∧
      ∀ other, other ∈ row ↔ SameGroup tokens place.index other ∧
        place.Faces other ∧ Rules tokens place.index other := by
  cases content : table.slot place with
  | none =>
      refine ⟨[], .empty, .nil, fun other => ⟨nofun, fun ⟨same, faces, rules⟩ => ?_⟩⟩
      obtain ⟨top, linked⟩ := exists_linkedWithin faces same rules
      exact absurd linked (shows.slot_eq_none.1 content top)
  | some child =>
      obtain ⟨top, rfl, linked⟩ := (shows.slot_iff place child).1 content
      obtain ⟨row, inOrder, sorted, members⟩ := below top linked
      have group (other : Fin count) :
          SameGroup tokens top other ↔ SameGroup tokens place.index other :=
        ⟨linked.sameGroup.trans, linked.sameGroup.symm.trans⟩
      refine ⟨row, inOrder, sorted, fun other => ?_⟩
      rw [members, group, linked.2.2.faces_and_rules_iff]

/-- Every operator holds the tokens of its group that it rules. -/
theorem exists_isRowBelow (shows : table.Shows (LinkedWithin tokens count)) (index : Fin count) :
    ∃ row, table.IsRowBelow index row := by
  have order := Finite.wellFounded_of_trans_of_irrefl (Function.swap (Above tokens))
  induction index using order.induction with
  | _ index ih =>
    have below (side : Side) (child : Fin count)
        (linked : LinkedWithin tokens count ⟨side, index⟩ child) :
        ∃ row, table.IsRowBelow child row := ih child linked.2.2.rules.above
    obtain ⟨before, leftOrder, leftSorted, leftMembers⟩ :=
      shows.exists_inOrder_slot ⟨.left, index⟩ (below .left)
    obtain ⟨after, rightOrder, rightSorted, rightMembers⟩ :=
      shows.exists_inOrder_slot ⟨.right, index⟩ (below .right)
    simp only [Place.faces_left, Place.faces_right] at leftMembers rightMembers
    have sorted : (before ++ index :: after).Pairwise (· < ·) :=
      pairwise_lt_append_cons leftSorted rightSorted
        (fun other member => ((leftMembers other).1 member).2.1)
        (fun other member => ((rightMembers other).1 member).2.1)
    refine ⟨before ++ index :: after, .operator leftOrder rightOrder, sorted, fun other => ?_⟩
    rw [List.mem_append, List.mem_cons, leftMembers, rightMembers]
    constructor
    · rintro (⟨same, -, rules⟩ | rfl | ⟨same, -, rules⟩)
      · exact ⟨same, .inr rules⟩
      · exact ⟨.refl tokens other, .inl rfl⟩
      · exact ⟨same, .inr rules⟩
    · rintro ⟨same, rfl | rules⟩
      · exact .inr (.inl rfl)
      · rcases Nat.lt_or_gt_of_ne (Fin.val_ne_of_ne rules.1) with later | earlier
        · exact .inr (.inr ⟨same, later, rules⟩)
        · exact .inl ⟨same, earlier, rules⟩

theorem isFree_iff (shows : table.Shows (LinkedWithin tokens count)) {index : Fin count} :
    table.isFree index ↔ ∀ place, ¬ LinkedWithin tokens count place index := by
  rw [isFree, Option.isNone_iff_eq_none, shows.parent_eq_none]

/-- A free token rules its whole group. -/
theorem rules_of_isFree (shows : table.Shows (LinkedWithin tokens count)) {root index : Fin count}
    (free : table.isFree root) (same : SameGroup tokens root index) (different : index ≠ root) :
    Rules tokens root index := by
  obtain ⟨top, topSame, highest⟩ :=
    exists_highest tokens (SameGroup tokens root) ⟨root, .refl tokens root⟩
  have highestOfTop (other : Fin count) (group : SameGroup tokens top other)
      (apart : other ≠ top) : Above tokens top other := highest other (topSame.trans group) apart
  by_cases isTop : root = top
  · subst isTop
    exact same.rules_of_highest
      (fun other group range => highestOfTop other group (by omega)) different
  · -- Otherwise the root would have a parent in its group.
    have rules := topSame.symm.rules_of_highest
      (fun other group range => highestOfTop other group (by omega)) isTop
    obtain ⟨place, linked⟩ := exists_place_linkedWithin top.isLt root.isLt topSame.symm rules
    exact absurd linked (shows.isFree_iff.1 free place)

/-- The highest token of a group is its only free one. -/
theorem existsUnique_isFree (shows : table.Shows (LinkedWithin tokens count)) (index : Fin count) :
    ∃! root, table.isFree root ∧ SameGroup tokens root index := by
  obtain ⟨top, topSame, highest⟩ :=
    exists_highest tokens (SameGroup tokens index) ⟨index, .refl tokens index⟩
  have free : table.isFree top := by
    rw [shows.isFree_iff]
    intro place linked
    have rules := linked.2.2.rules
    have group : SameGroup tokens index place.index := topSame.trans linked.sameGroup.symm
    exact rules.above.asymm (highest place.index group rules.1)
  refine ⟨top, ⟨free, topSame.symm⟩, fun other ⟨otherFree, otherSame⟩ => ?_⟩
  by_contra different
  have group : SameGroup tokens top other := topSame.symm.trans otherSame.symm
  have down := shows.rules_of_isFree free group different
  have up := shows.rules_of_isFree otherFree group.symm (Ne.symm different)
  exact down.asymm up

theorem slot_eq_operator_iff (shows : table.Shows (LinkedWithin tokens count))
    {place : Place count} {child : Fin count} :
    table.slot place = some (.operator child) ↔ LinkedWithin tokens count place child := by
  rw [shows.slot_iff]
  simp

/-- The links inside the groups form one tree for every group. -/
theorem isForest (shows : table.Shows (LinkedWithin tokens count)) : table.IsForest where
  parent_iff child parent := by simp only [shows.parent_iff, shows.slot_eq_operator_iff]
  slot_unique first second child one other := by
    rw [shows.slot_eq_operator_iff] at one other
    exact one.2.2.place_unique one.1 other.1 other.2.2
  no_operand place operand held := by
    obtain ⟨index, same, -⟩ := (shows.slot_iff _ _).1 held
    cases same
  sameGroup place child held := (shows.slot_eq_operator_iff.1 held).sameGroup
  right_tighter index child held := (shows.slot_eq_operator_iff.1 held).precedence
  left_not_looser index child held := (shows.slot_eq_operator_iff.1 held).precedence
  existsUnique_root := shows.existsUnique_isFree
  exists_inOrder root free := by
    obtain ⟨row, inOrder, sorted, members⟩ := shows.exists_isRowBelow root
    refine ⟨row, inOrder, sorted, fun index => ?_⟩
    rw [members, and_iff_left_iff_imp]
    intro same
    by_cases equal : index = root
    · exact .inl equal
    · exact .inr (shows.rules_of_isFree free same equal)

end Shows

/-- The pass over a fresh table ends for every row of tokens and leaves one tree for every group. -/
theorem exists_linkWithinGroups_isForest (tokens : Vector Token count) :
    ∃ table, (fresh tokens).linkWithinGroups = some table ∧ table.IsForest := by
  obtain ⟨table, linked, shows⟩ := exists_linkWithinGroups tokens
  exact ⟨table, linked, shows.isForest⟩

end LinkTable

end PolishNotation
