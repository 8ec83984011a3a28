import PolishNotation.Links.Group
import PolishNotation.Proofs.Links.Rank

namespace PolishNotation

variable {count : Nat} {tokens : Vector Token count} {limit : Nat}

/-- The previous token of a group is followed by deeper tokens only. -/
theorem PreviousInGroup.deeper {previous index between : Fin count}
    (found : PreviousInGroup tokens previous index) (after : previous < between)
    (before : between < index) : (tokens.get index).depth < (tokens.get between).depth := by
  obtain ⟨-, ⟨sameDepth, notLess⟩, nearest⟩ := found
  have bound := notLess between (.inl ⟨by omega, by omega⟩)
  by_contra shallow
  refine nearest between after before ⟨by omega, fun other range => ?_⟩
  have inner := notLess other (by omega)
  omega

/-- A token that follows others of its group has a previous one among them. -/
theorem exists_previousInGroup {first index : Fin count} (before : first < index)
    (same : SameGroup tokens first index) :
    ∃ previous, first ≤ previous ∧ PreviousInGroup tokens previous index := by
  by_cases nearer : ∃ between, first < between ∧ between < index ∧ SameGroup tokens between index
  · obtain ⟨between, after, stillBefore, group⟩ := nearer
    obtain ⟨previous, later, found⟩ := exists_previousInGroup stillBefore group
    exact ⟨previous, by omega, found⟩
  · exact ⟨first, Fin.le_refl first, before, same,
      fun between after stillBefore group => nearer ⟨between, after, stillBefore, group⟩⟩
  termination_by index.val - first.val

/-- A token of the same depth that is ruled belongs to the same group. -/
theorem Rules.sameGroup {upper lower : Fin count} (rules : Rules tokens upper lower)
    (sameDepth : (tokens.get lower).depth = (tokens.get upper).depth) :
    SameGroup tokens lower upper := by
  refine ⟨sameDepth, fun between range => ?_⟩
  by_cases end_ : between = upper
  · rw [end_, sameDepth]
  · rw [sameDepth]
    exact (rules.2 between (by omega)).depth_le

/-- Inside a group a token is linked with its head on each side. -/
def LinkedWithin (tokens : Vector Token count) (limit : Nat) (place : Place count)
    (index : Fin count) : Prop :=
  place.index.val < limit ∧ (tokens.get index).depth = (tokens.get place.index).depth ∧
    Heads tokens limit place index

/-- A further token leaves the left heads of the earlier tokens as they are. -/
theorem heads_left_succ {target index : Fin count} (inside : target.val < limit) :
    Heads tokens (limit + 1) ⟨.left, target⟩ index ↔ Heads tokens limit ⟨.left, target⟩ index := by
  constructor
  · rintro ⟨-, faces, rules, highest⟩
    rw [Place.faces_left] at faces
    exact ⟨by omega, faces, rules, fun other otherInside => highest other (by omega)⟩
  · rintro ⟨-, faces, rules, highest⟩
    rw [Place.faces_left] at faces
    refine ⟨by omega, faces, rules, fun other otherInside otherFaces => ?_⟩
    rw [Place.faces_left] at otherFaces
    exact highest other (by omega) otherFaces

/-- A further token is the right head of an earlier token that rules it if it stands above all
tokens between them. -/
theorem heads_right_last {target index : Fin count} :
    Heads tokens (index.val + 1) ⟨.right, target⟩ index ↔
      target < index ∧ Rules tokens target index ∧
        ∀ other : Fin count, target < other → other < index → Above tokens index other := by
  constructor
  · rintro ⟨-, faces, rules, highest⟩
    refine ⟨faces, rules, fun other after before => ?_⟩
    exact highest other (by omega) after (rules.between (.inl ⟨after, by omega⟩)) (by omega)
  · rintro ⟨faces, rules, highest⟩
    refine ⟨by omega, faces, rules, fun other inside otherFaces _ different => ?_⟩
    rw [Place.faces_right] at otherFaces
    exact highest other otherFaces (by omega)

/-- A further token leaves the right head of an earlier token as it is unless it is the new head. -/
theorem heads_right_succ {target latest index : Fin count} (different : index ≠ latest) :
    Heads tokens (latest.val + 1) ⟨.right, target⟩ index ↔
      Heads tokens latest.val ⟨.right, target⟩ index ∧
        (target < latest → Rules tokens target latest → Above tokens index latest) := by
  constructor
  · rintro ⟨inside, faces, rules, highest⟩
    exact ⟨⟨by omega, faces, rules, fun other otherInside => highest other (by omega)⟩,
      fun before covers => highest latest (by omega) before covers different.symm⟩
  · rintro ⟨⟨inside, faces, rules, highest⟩, above⟩
    refine ⟨by omega, faces, rules, fun other otherInside otherFaces otherRules apart => ?_⟩
    by_cases same : other = latest
    · subst same
      exact above otherFaces otherRules
    · exact highest other (by omega) otherFaces otherRules apart

/-- A further token can get a left child, can become a right child, and can hide the right child of
an operator that rules it. -/
theorem linkedWithin_succ {index child : Fin count} {place : Place count} :
    LinkedWithin tokens (index.val + 1) place child ↔
      place = ⟨.left, index⟩ ∧ LinkedWithin tokens (index.val + 1) ⟨.left, index⟩ child ∨
      place.side = .right ∧ child = index ∧
        LinkedWithin tokens (index.val + 1) ⟨.right, place.index⟩ index ∨
      LinkedWithin tokens index.val place child ∧
        (place.side = .right → Rules tokens place.index index → Above tokens child index) := by
  rcases place with ⟨side, target⟩
  cases side with
  | left =>
      by_cases last : target = index
      · simp [LinkedWithin, last]
      · have inside : target.val < index.val + 1 ↔ target.val < index.val := by omega
        by_cases before : target.val < index.val
        · simp [LinkedWithin, last, inside, heads_left_succ before]
        · simp [LinkedWithin, last, inside, before]
  | right =>
      by_cases same : child = index
      · subst same
        have outside : ¬ LinkedWithin tokens child.val ⟨.right, target⟩ child :=
          fun linked => Nat.lt_irrefl _ linked.2.2.inside
        simp [outside]
      · have inside (heads : Heads tokens index.val ⟨.right, target⟩ child) : target < index := by
          have faces := heads.faces
          have childInside := heads.inside
          rw [Place.faces_right] at faces
          omega
        simp only [LinkedWithin, heads_right_succ same, same]
        constructor
        · rintro ⟨-, sameDepth, heads, above⟩
          exact .inr (.inr ⟨⟨inside heads, sameDepth, heads⟩, fun _ => above (inside heads)⟩)
        · rintro (⟨wrong, -⟩ | ⟨-, ⟨⟩, -⟩ | ⟨⟨before, sameDepth, heads⟩, above⟩)
          · cases wrong
          · exact ⟨by omega, sameDepth, heads, fun _ => above trivial⟩

/-- A group is entered without a link. -/
theorem linkedWithin_succ_of_first {index child : Fin count} {place : Place count}
    (first : ∀ previous, ¬ PreviousInGroup tokens previous index) :
    LinkedWithin tokens (index.val + 1) place child ↔
      LinkedWithin tokens index.val place child := by
  have alone (other : Fin count) (before : other < index) : ¬ SameGroup tokens other index := by
    intro same
    obtain ⟨previous, found⟩ := exists_previousInGroup before same
    exact first previous found.2
  have noChild : ¬ LinkedWithin tokens (index.val + 1) ⟨.left, index⟩ child :=
    fun ⟨_, sameDepth, heads⟩ => alone child heads.faces (heads.rules.sameGroup sameDepth)
  have noParent : ¬ LinkedWithin tokens (index.val + 1) ⟨.right, place.index⟩ index :=
    fun ⟨_, sameDepth, heads⟩ =>
      alone place.index heads.faces (heads.rules.sameGroup sameDepth).symm
  have visible (linked : LinkedWithin tokens index.val place child)
      (rules : Rules tokens place.index index) : Above tokens child index := by
    obtain ⟨before, sameDepth, heads⟩ := linked
    have different := Fin.ne_of_lt (show child < index from heads.inside)
    refine .of_not different fun above => ?_
    have upper := above.depth_le
    have lower := rules.above.depth_le
    exact alone place.index before (rules.sameGroup (by omega)).symm
  rw [linkedWithin_succ]
  constructor
  · rintro (⟨-, linked⟩ | ⟨-, -, linked⟩ | ⟨linked, -⟩)
    · exact absurd linked noChild
    · exact absurd linked noParent
    · exact linked
  · intro linked
    exact .inr (.inr ⟨linked, fun _ => visible linked⟩)

namespace PreviousInGroup

variable {previous index : Fin count}

/-- No token behind the previous one is as shallow as the group. -/
theorem le_of_depth_le (found : PreviousInGroup tokens previous index) {other : Fin count}
    (before : other < index) (shallow : (tokens.get other).depth ≤ (tokens.get index).depth) :
    other ≤ previous := by
  by_contra after
  have deeper := found.deeper (by omega) before
  omega

theorem above_between (found : PreviousInGroup tokens previous index) {other : Fin count}
    (after : previous < other) (before : other < index) : Above tokens index other :=
  above_iff.2 (.inl (found.deeper after before))

theorem above_of_tighter (found : PreviousInGroup tokens previous index)
    (tighter : (tokens.get index).TighterThan (tokens.get previous)) :
    Above tokens previous index := by
  have sameDepth := found.2.1.1
  exact above_iff.2 (.inr ⟨sameDepth, .inl tighter⟩)

/-- A tighter token has no left child in its group. -/
theorem not_linked_left (found : PreviousInGroup tokens previous index)
    (tighter : (tokens.get index).TighterThan (tokens.get previous)) (child : Fin count) :
    ¬ LinkedWithin tokens (index.val + 1) ⟨.left, index⟩ child := by
  intro linked
  obtain ⟨-, childDepth, heads⟩ := linked
  have faces := heads.faces
  rw [Place.faces_left] at faces
  have early := found.le_of_depth_le faces (by dsimp only at childDepth; omega)
  exact (found.above_of_tighter tighter).asymm (heads.rules.2 previous (.inr ⟨early, found.1⟩))

/-- A tighter token stands on the right of the previous one only. -/
theorem linked_right_iff (found : PreviousInGroup tokens previous index)
    (tighter : (tokens.get index).TighterThan (tokens.get previous)) {target : Fin count} :
    LinkedWithin tokens (index.val + 1) ⟨.right, target⟩ index ↔ target = previous := by
  have before := found.1
  have sameDepth := found.2.1.1
  have above := found.above_of_tighter tighter
  constructor
  · intro linked
    obtain ⟨-, parentDepth, heads⟩ := linked
    obtain ⟨parentBefore, rules, highest⟩ := heads_right_last.1 heads
    have early := found.le_of_depth_le parentBefore (by dsimp only at parentDepth; omega)
    by_contra different
    exact above.asymm (highest previous (by omega) before)
  · intro same
    subst same
    have rules : Rules tokens target index := by
      apply Rules.of_after before
      intro between after inside
      by_cases same : between = index
      · exact same ▸ above
      · exact above.trans (found.above_between after (by omega))
    exact ⟨by dsimp only; omega, sameDepth.symm, heads_right_last.2
      ⟨before, rules, fun other => found.above_between⟩⟩

/-- A tighter token hides no right child. -/
theorem above_of_linked (found : PreviousInGroup tokens previous index)
    (tighter : (tokens.get index).TighterThan (tokens.get previous)) {child : Fin count}
    {place : Place count} (linked : LinkedWithin tokens index.val place child)
    (right : place.side = .right) (rules : Rules tokens place.index index) :
    Above tokens child index := by
  have above := found.above_of_tighter tighter
  obtain ⟨placeBefore, childDepth, heads⟩ := linked
  have depths := rules.above.depth_le
  by_cases deeper : (tokens.get place.index).depth < (tokens.get index).depth
  · exact above_iff.2 (.inl (by omega))
  · have early := found.le_of_depth_le (show child < index from heads.inside) (by omega)
    by_cases same : child = previous
    · exact same ▸ above
    · rcases place with ⟨side, target⟩
      cases right
      have faces := heads.faces
      rw [Place.faces_right] at faces
      have before := found.1
      have inner := rules.between (.inl ⟨by dsimp only; omega, Fin.le_of_lt before⟩)
      have facing : target < previous := by omega
      exact (heads.highest previous before facing inner (Ne.symm same)).trans above

end PreviousInGroup

/-- A tighter token stands on the right of the previous one and changes no other link. -/
theorem linkedWithin_succ_of_tighter {previous index child : Fin count} {place : Place count}
    (found : PreviousInGroup tokens previous index)
    (tighter : (tokens.get index).TighterThan (tokens.get previous)) :
    LinkedWithin tokens (index.val + 1) place child ↔
      place = ⟨.right, previous⟩ ∧ child = index ∨ LinkedWithin tokens index.val place child := by
  rw [linkedWithin_succ, found.linked_right_iff tighter]
  constructor
  · rintro (⟨-, linked⟩ | ⟨right, same, parent⟩ | ⟨linked, -⟩)
    · exact absurd linked (found.not_linked_left tighter child)
    · rcases place with ⟨side, target⟩
      cases right
      exact .inl ⟨congrArg _ parent, same⟩
    · exact .inr linked
  · rintro (⟨rfl, same⟩ | linked)
    · exact .inr (.inl ⟨rfl, same, rfl⟩)
    · exact .inr (.inr ⟨linked, found.above_of_linked tighter linked⟩)

/-- The climb for a token reaches an earlier token of its group that it can adopt together with
everything that stands between the two. -/
structure Adoptable (tokens : Vector Token count) (index node : Fin count) : Prop where
  before : node < index
  sameDepth : (tokens.get node).depth = (tokens.get index).depth
  rules : Rules tokens index node
  covers : ∀ between, node < between → between < index → Above tokens node between

namespace Adoptable

/-- A token that is not looser stands below the token and can be adopted if it covers the way. -/
theorem of_covers {index node : Fin count} (before : node < index)
    (sameDepth : (tokens.get node).depth = (tokens.get index).depth)
    (looser : ¬ (tokens.get index).TighterThan (tokens.get node))
    (covers : ∀ between, node < between → between < index → Above tokens node between) :
    Adoptable tokens index node := by
  have above : Above tokens index node := by
    rw [above_iff]
    rw [Token.TighterThan] at looser
    omega
  refine ⟨before, sameDepth, .of_before before ?_, covers⟩
  intro between after stillBefore
  by_cases same : between = node
  · exact same ▸ above
  · exact above.trans (covers between (by omega) stillBefore)

theorem of_previous {previous index : Fin count} (found : PreviousInGroup tokens previous index)
    (looser : ¬ (tokens.get index).TighterThan (tokens.get previous)) :
    Adoptable tokens index previous := by
  have sameDepth := found.2.1.1
  apply of_covers found.1 sameDepth looser
  intro between after before
  have deeper := found.deeper after before
  exact above_iff.2 (.inl (by omega))

/-- The parent of such a token stands before it. -/
theorem parent_right {index node : Fin count} (adoptable : Adoptable tokens index node)
    {place : Place count} (linked : LinkedWithin tokens index.val place node) :
    place.side = .right ∧ place.index < node := by
  obtain ⟨inside, -, heads⟩ := linked
  have faces := heads.faces
  have above := heads.rules.above
  rcases place with ⟨side, target⟩
  cases side with
  | left =>
      rw [Place.faces_left] at faces
      exact absurd (adoptable.covers target faces inside) above.asymm
  | right => exact ⟨rfl, faces⟩

/-- A parent that is not looser than the token can be adopted instead. -/
theorem parent {index node : Fin count} (adoptable : Adoptable tokens index node)
    {place : Place count} (linked : LinkedWithin tokens index.val place node)
    (looser : ¬ (tokens.get index).TighterThan (tokens.get place.index)) :
    Adoptable tokens index place.index := by
  obtain ⟨right, earlier⟩ := adoptable.parent_right linked
  obtain ⟨inside, parentDepth, heads⟩ := linked
  apply of_covers inside (parentDepth.symm.trans adoptable.sameDepth) looser
  intro between after before
  by_cases near : between ≤ node
  · exact heads.rules.2 between (.inl ⟨after, near⟩)
  · exact heads.rules.above.trans (adoptable.covers between (by omega) before)

end Adoptable

/-- The climb ends at an adoptable token all of whose parents are looser than the new token. -/
structure Adopted (tokens : Vector Token count) (index top : Fin count) : Prop
    extends Adoptable tokens index top where
  stops : ∀ place : Place count, LinkedWithin tokens index.val place top →
    (tokens.get index).TighterThan (tokens.get place.index)

namespace Adopted

variable {index top : Fin count}

/-- The adopted token is the left head of the new one. -/
theorem heads (adopted : Adopted tokens index top) :
    Heads tokens (index.val + 1) ⟨.left, index⟩ top := by
  have sameDepth := adopted.sameDepth
  have inside : top.val < index.val + 1 := Nat.lt_succ_of_lt adopted.before
  obtain ⟨head, heads⟩ : ∃ head, Heads tokens (index.val + 1) ⟨.left, index⟩ head :=
    Heads.exists_of_rules inside adopted.before adopted.rules
  by_cases same : top = head
  · exact same ▸ heads
  · -- Otherwise the head rules the token, and a parent between the two is not looser.
    have headRules := heads.rules_of_rules inside adopted.before adopted.rules same
    obtain ⟨place, before, placeHeads, upper⟩ :=
      Heads.exists_place (show head.val < index.val from heads.faces) adopted.before headRules
    have above : Above tokens index place.index := by
      rcases upper with equal | lower
      · exact equal ▸ heads.rules.above
      · exact heads.rules.above.trans lower
    have upperDepth := above.depth_le
    have lowerDepth := placeHeads.rules.above.depth_le
    have tighter := adopted.stops place ⟨before, by omega, placeHeads⟩
    exact absurd above (Above.asymm (above_iff.2 (.inr ⟨by omega, .inl tighter⟩)))

theorem linked_left_iff (adopted : Adopted tokens index top) {child : Fin count} :
    LinkedWithin tokens (index.val + 1) ⟨.left, index⟩ child ↔ child = top := by
  constructor
  · intro linked
    exact linked.2.2.unique adopted.heads
  · intro same
    subst same
    exact ⟨Nat.lt_succ_self _, adopted.sameDepth, adopted.heads⟩

/-- A parent of the adopted token rules the new one as well. -/
theorem rules_of_linked (adopted : Adopted tokens index top) {place : Place count}
    (linked : LinkedWithin tokens index.val place top) : Rules tokens place.index index := by
  have sameDepth := adopted.sameDepth
  obtain ⟨right, earlier⟩ := adopted.parent_right linked
  have tighter := adopted.stops place linked
  obtain ⟨inside, parentDepth, heads⟩ := linked
  apply Rules.of_after (show place.index < index from inside)
  intro between after before
  by_cases near : between ≤ top
  · exact heads.rules.2 between (.inl ⟨after, near⟩)
  · by_cases same : between = index
    · rw [same, above_iff]
      rw [Token.TighterThan] at tighter
      omega
    · exact heads.rules.above.trans (adopted.covers between (by omega) (by omega))

/-- An earlier token that rules the new one stands before the adopted token. -/
theorem before_of_rules (adopted : Adopted tokens index top) {target : Fin count}
    (earlier : target < index) (rules : Rules tokens target index) : target < top := by
  by_contra late
  have above : Above tokens index target := by
    by_cases same : target = top
    · exact same ▸ adopted.rules.above
    · exact adopted.rules.above.trans (adopted.covers target (by omega) earlier)
  exact above.asymm rules.above

/-- A token that rules the new one and everything before it is not hidden by the adopted token. -/
theorem rules_top (adopted : Adopted tokens index top) {target : Fin count}
    (earlier : target < index) (rules : Rules tokens target index) : Rules tokens target top :=
  rules.between (.inl ⟨adopted.before_of_rules earlier rules, Fin.le_of_lt adopted.before⟩)

/-- The new token takes the place of the adopted one. -/
theorem linked_right_iff (adopted : Adopted tokens index top) {target : Fin count} :
    LinkedWithin tokens (index.val + 1) ⟨.right, target⟩ index ↔
      LinkedWithin tokens index.val ⟨.right, target⟩ top := by
  constructor
  · intro linked
    obtain ⟨-, parentDepth, heads⟩ := linked
    obtain ⟨earlier, rules, highest⟩ := heads_right_last.1 heads
    refine ⟨earlier, adopted.sameDepth.trans parentDepth, adopted.before,
      adopted.before_of_rules earlier rules, adopted.rules_top earlier rules, ?_⟩
    intro other otherBefore otherAfter _ different
    rw [Place.faces_right] at otherAfter
    have otherRules : Rules tokens index other := .of_before otherBefore
      fun between lower upper => highest between (by omega) upper
    exact adopted.heads.highest other (Nat.lt_succ_of_lt otherBefore) otherBefore otherRules
      different
  · intro linked
    have rules : Rules tokens target index := adopted.rules_of_linked linked
    obtain ⟨earlier, parentDepth, heads⟩ := linked
    have highest (other : Fin count) (after : target < other) (before : other < index) :
        Above tokens index other := by
      by_cases same : other = top
      · exact same ▸ adopted.rules.above
      · exact adopted.rules.above.trans (heads.highest other before after
          (rules.between (.inl ⟨after, Fin.le_of_lt before⟩)) same)
    exact ⟨Nat.lt_succ_of_lt earlier, adopted.sameDepth.symm.trans parentDepth,
      heads_right_last.2 ⟨earlier, rules, highest⟩⟩

/-- The new token hides the adopted one and no other child. -/
theorem above_iff_ne (adopted : Adopted tokens index top) {child : Fin count} {place : Place count}
    (linked : LinkedWithin tokens index.val place child) :
    (place.side = .right → Rules tokens place.index index → Above tokens child index) ↔
      child ≠ top := by
  constructor
  · intro above same
    subst same
    exact adopted.rules.above.asymm
      (above (adopted.parent_right linked).1 (adopted.rules_of_linked linked))
  · intro different right rules
    obtain ⟨earlier, -, heads⟩ := linked
    have childBefore := heads.inside
    have topAfter := adopted.before_of_rules earlier rules
    rcases place with ⟨side, target⟩
    cases right
    have faces := heads.faces
    rw [Place.faces_right] at faces
    have childAbove := heads.highest top adopted.before topAfter
      (adopted.rules_top earlier rules) (Ne.symm different)
    apply Above.of_not (Fin.ne_of_lt childBefore)
    intro above
    -- The new token would rule the child, which stands above the head of this side.
    have childRules : Rules tokens index child := by
      apply Rules.of_before childBefore
      intro between lower upper
      by_cases same : between = child
      · exact same ▸ above
      · have after : target < between := by omega
        exact above.trans (heads.highest between upper after
          (rules.between (.inl ⟨after, Fin.le_of_lt upper⟩)) same)
    exact childAbove.asymm (adopted.heads.highest child (Nat.lt_succ_of_lt childBefore)
      childBefore childRules different)

end Adopted

/-- A token that is not tighter adopts a subtree and takes its place. -/
theorem linkedWithin_succ_of_adopted {index top child : Fin count} {place : Place count}
    (adopted : Adopted tokens index top) :
    LinkedWithin tokens (index.val + 1) place child ↔
      place = ⟨.left, index⟩ ∧ child = top ∨
      LinkedWithin tokens index.val place top ∧ child = index ∨
      LinkedWithin tokens index.val place child ∧ child ≠ top := by
  have moved : place.side = .right ∧ child = index ∧
        LinkedWithin tokens index.val ⟨.right, place.index⟩ top ↔
      LinkedWithin tokens index.val place top ∧ child = index := by
    rcases place with ⟨side, target⟩
    constructor
    · rintro ⟨right, same, linked⟩
      cases right
      exact ⟨linked, same⟩
    · rintro ⟨linked, same⟩
      have right : side = .right := (adopted.parent_right linked).1
      subst right
      exact ⟨rfl, same, linked⟩
  rw [linkedWithin_succ, adopted.linked_left_iff, adopted.linked_right_iff, moved]
  apply or_congr_right
  apply or_congr_right
  exact and_congr_right adopted.above_iff_ne

end PolishNotation
