import PolishNotation.Links.Within
import PolishNotation.Proofs.Links.Group

namespace PolishNotation

variable {count : Nat} {tokens : Vector Token count} {limit : Nat}

/-- The row of all indices from a limit on starts with the limit. -/
theorem drop_finRange_eq_cons {index : Fin count} {rest : List (Fin count)}
    (row : (List.finRange count).drop limit = index :: rest) :
    index.val = limit ∧ (List.finRange count).drop (limit + 1) = rest := by
  have length := congrArg List.length row
  rw [List.length_drop, List.length_finRange, List.length_cons] at length
  rw [List.drop_eq_getElem_cons (by rw [List.length_finRange]; omega), List.getElem_finRange] at row
  obtain ⟨rfl, same⟩ := List.cons.inj row
  exact ⟨rfl, same⟩

namespace LinkTable

variable {linked : Place count → Fin count → Prop}

/-- The slots of a table hold the operators of a relation, and the parents agree with the slots. -/
structure Shows (table : LinkTable tokens) (linked : Place count → Fin count → Prop) : Prop where
  slot_iff : ∀ place child, table.slot place = some child ↔
    ∃ index, child = .operator index ∧ linked place index
  parent_iff : ∀ index parent, table.parent.get index = some parent ↔
    ∃ side, linked ⟨side, parent⟩ index

theorem shows_fresh : (fresh tokens).Shows fun _ _ => False where
  slot_iff place child := by simp [slot_fresh]
  parent_iff index parent := by simp [parent_fresh]

namespace Shows

theorem congr {table : LinkTable tokens} {other : Place count → Fin count → Prop}
    (shows : table.Shows linked) (same : ∀ place index, linked place index ↔ other place index) :
    table.Shows other where
  slot_iff place child := by simp only [shows.slot_iff, same]
  parent_iff index parent := by simp only [shows.parent_iff, same]

theorem slot_eq_none {table : LinkTable tokens} (shows : table.Shows linked) {place : Place count} :
    table.slot place = none ↔ ∀ index, ¬ linked place index := by
  rw [Option.eq_none_iff_forall_ne_some]
  simp only [ne_eq, shows.slot_iff, not_exists, not_and]
  exact ⟨fun empty index => empty _ index rfl, fun empty _ index _ => empty index⟩

theorem parent_eq_none {table : LinkTable tokens} (shows : table.Shows linked)
    {index : Fin count} :
    table.parent.get index = none ↔ ∀ place, ¬ linked place index := by
  rw [Option.eq_none_iff_forall_ne_some]
  simp only [ne_eq, shows.parent_iff, not_exists]
  exact ⟨fun free place => free place.index place.side, fun free parent side => free ⟨side, parent⟩⟩

/-- A free operator goes into an empty slot. -/
theorem fill {table : LinkTable tokens} (shows : table.Shows linked) {place : Place count}
    {child : Fin count} (empty : ∀ index, ¬ linked place index)
    (free : ∀ other, ¬ linked other child) :
    (table.fill place (.operator child)).Shows fun other index =>
      other = place ∧ index = child ∨ linked other index where
  slot_iff other content := by
    rw [slot_fill]
    by_cases same : other = place
    · subst same
      simp [empty, eq_comm]
    · simp [same, shows.slot_iff]
  parent_iff index parent := by
    rw [parent_fill_operator]
    by_cases same : index = child
    · subst same
      rcases place with ⟨side, target⟩
      simp [free, eq_comm]
    · simp [same, shows.parent_iff]

/-- A free operator adopts the operator of a right slot, or a free one, and takes its place. -/
theorem adopt {table : LinkTable tokens} (shows : table.Shows linked) {index node : Fin count}
    (different : index ≠ node) (empty : ∀ other, ¬ linked ⟨.left, index⟩ other)
    (free : ∀ place, ¬ linked place index)
    (right : ∀ place, linked place node → place.side = .right)
    (unique : ∀ first second, linked first node → linked second node → first = second)
    (alone : ∀ place other, linked place node → linked place other → other = node) :
    (table.adopt index node).Shows fun place other =>
      place = ⟨.left, index⟩ ∧ other = node ∨ linked place node ∧ other = index ∨
        linked place other ∧ other ≠ node := by
  unfold LinkTable.adopt
  cases found : table.parent.get node with
  | none =>
      have noParent := shows.parent_eq_none.1 found
      refine (shows.fill empty noParent).congr fun place other => ?_
      have kept : linked place other ∧ other ≠ node ↔ linked place other :=
        and_iff_left_of_imp fun link same => noParent place (same ▸ link)
      simp [noParent, kept]
  | some ancestor =>
      obtain ⟨side, held⟩ := (shows.parent_iff node ancestor).1 found
      obtain rfl : side = .right := right _ held
      have holder (place : Place count) : linked place node ↔ place = ⟨.right, ancestor⟩ :=
        ⟨fun link => unique _ _ link held, fun same => same ▸ held⟩
      refine ⟨fun place content => ?_, fun other parent => ?_⟩
      · rw [slot_fill, slot_fill]
        by_cases left : place = ⟨.left, index⟩
        · subst left
          simp [holder, empty, eq_comm]
        by_cases replaced : place = ⟨.right, ancestor⟩
        · subst replaced
          have replacedOnly (other : Fin count) :
              ¬ (linked ⟨.right, ancestor⟩ other ∧ other ≠ node) :=
            fun link => link.2 (alone _ other held link.1)
          simp only [left, holder, replacedOnly, if_true, if_false, false_and, true_and, false_or,
            or_false, Option.some.injEq]
          simp [eq_comm]
        · have kept (other : Fin count) : linked place other ∧ other ≠ node ↔ linked place other :=
            and_iff_left_of_imp fun link same => replaced ((holder place).1 (same ▸ link))
          simp only [left, replaced, if_false, holder, kept, false_and, false_or, shows.slot_iff]
      · rw [parent_fill_operator, parent_fill_operator]
        by_cases moved : other = node
        · subst moved
          simp [different.symm, eq_comm]
        by_cases new : other = index
        · subst new
          simp [holder, free, different, eq_comm]
        · simp [moved, new, shows.parent_iff]

end Shows

/-- A climb from an adoptable token ends at an adoptable one whose parents are looser. -/
theorem exists_climb {table : LinkTable tokens} {index : Fin count}
    (shows : table.Shows (LinkedWithin tokens index.val)) {steps : Nat} {node : Fin count}
    (enough : node.val < steps) (adoptable : Adoptable tokens index node) :
    ∃ top, table.climb (tokens.get index) steps node = some top ∧ Adopted tokens index top := by
  induction steps generalizing node with
  | zero => omega
  | succ steps ih =>
      rw [climb]
      cases found : table.parent.get node with
      | none =>
          have free := shows.parent_eq_none.1 found
          exact ⟨node, rfl, adoptable, fun place link => absurd link (free place)⟩
      | some ancestor =>
          obtain ⟨side, link⟩ := (shows.parent_iff node ancestor).1 found
          by_cases tighter : (tokens.get index).TighterThan (tokens.get ancestor)
          · refine ⟨node, if_pos tighter, adoptable, fun place other => ?_⟩
            have same := other.2.2.place_unique other.1 link.1 link.2.2
            exact same ▸ tighter
          · have earlier := (adoptable.parent_right link).2
            dsimp only at earlier
            have parentAdoptable : Adoptable tokens index ancestor := adoptable.parent link tighter
            obtain ⟨top, climbs, reached⟩ := ih (by omega) parentAdoptable
            exact ⟨top, (if_neg tighter).trans climbs, reached⟩

/-- A token that has a previous one in its group joins the links of the group. -/
theorem exists_join {table : LinkTable tokens} {previous index : Fin count}
    (shows : table.Shows (LinkedWithin tokens index.val))
    (found : PreviousInGroup tokens previous index) :
    ∃ next, table.join previous index = some next ∧
      next.Shows (LinkedWithin tokens (index.val + 1)) := by
  have empty (side : Side) (other : Fin count) :
      ¬ LinkedWithin tokens index.val ⟨side, index⟩ other :=
    fun link => Nat.lt_irrefl _ link.1
  have free (place : Place count) : ¬ LinkedWithin tokens index.val place index :=
    fun link => Nat.lt_irrefl _ link.2.2.inside
  rw [join]
  by_cases tighter : (tokens.get index).TighterThan (tokens.get previous)
  · rw [if_pos tighter]
    have vacant (other : Fin count) : ¬ LinkedWithin tokens index.val ⟨.right, previous⟩ other := by
      rintro ⟨-, sameDepth, heads⟩
      have deeper := found.deeper heads.faces heads.inside
      have previousDepth := found.2.1.1
      dsimp only at sameDepth
      omega
    exact ⟨_, rfl, (shows.fill vacant free).congr fun place child =>
      (linkedWithin_succ_of_tighter found tighter).symm⟩
  · rw [if_neg tighter]
    obtain ⟨top, climbs, adopted⟩ :=
      exists_climb shows previous.isLt (.of_previous found tighter)
    have shifted := shows.adopt (Ne.symm (Fin.ne_of_lt adopted.before)) (empty .left) free
      (fun place link => (adopted.parent_right link).1)
      (fun first second one other => one.2.2.place_unique one.1 other.1 other.2.2)
      (fun place other one second => second.2.2.unique one.2.2)
    rw [climbs]
    exact ⟨_, rfl, shifted.congr fun place child => (linkedWithin_succ_of_adopted adopted).symm⟩

/-- A token is a latest one if only deeper tokens follow it. -/
def IsLatest (tokens : Vector Token count) (limit : Nat) (index : Fin count) : Prop :=
  index.val < limit ∧ ∀ between : Fin count, index < between → between.val < limit →
    (tokens.get index).depth < (tokens.get between).depth

theorem previousInGroup_iff {previous index : Fin count} :
    PreviousInGroup tokens previous index ↔
      IsLatest tokens index.val previous ∧
        (tokens.get previous).depth = (tokens.get index).depth := by
  constructor
  · intro found
    have sameDepth := found.2.1.1
    refine ⟨⟨found.1, fun between after before => ?_⟩, sameDepth⟩
    rw [sameDepth]
    exact found.deeper after before
  · rintro ⟨⟨before, deeper⟩, sameDepth⟩
    refine ⟨before, ⟨sameDepth, fun between range => ?_⟩, fun between after stillBefore group => ?_⟩
    · by_cases first : between = previous
      · rw [first]
      by_cases last : between = index
      · rw [last, sameDepth]
      · exact Int.le_of_lt (deeper between (by omega) (by omega))
    · have bound := deeper between after stillBefore
      have groupDepth := group.1
      omega

/-- The list of the latest tokens starts with the deepest one. -/
structure Tracks (tokens : Vector Token count) (limit : Nat) (latest : List (Fin count)) :
    Prop where
  mem_iff : ∀ index, index ∈ latest ↔ IsLatest tokens limit index
  falling : latest.Pairwise fun first second =>
    (tokens.get second).depth < (tokens.get first).depth

theorem previous?_eq_find? (index : Fin count) {latest : List (Fin count)}
    (falling : latest.Pairwise fun first second =>
      (tokens.get second).depth < (tokens.get first).depth) :
    previous? tokens index latest =
      latest.find? fun other => (tokens.get other).depth = (tokens.get index).depth := by
  induction latest with
  | nil => rfl
  | cons other rest ih =>
      obtain ⟨below, fallingRest⟩ := List.pairwise_cons.1 falling
      rw [previous?, enclosing, List.dropWhile_cons, List.find?_cons]
      by_cases deeper : (tokens.get index).depth < (tokens.get other).depth
      · have different : (tokens.get other).depth ≠ (tokens.get index).depth := by omega
        simpa [deeper, different, previous?, enclosing] using ih fallingRest
      · by_cases same : (tokens.get other).depth = (tokens.get index).depth
        · simp [same]
        · have none : rest.find? (fun next =>
              (tokens.get next).depth = (tokens.get index).depth) = none := by
            refine List.find?_eq_none.2 fun next member equal => ?_
            have lower := below next member
            have equalDepth := of_decide_eq_true equal
            omega
          simp [deeper, same, none]

theorem enter_eq_filter (index : Fin count) {latest : List (Fin count)}
    (falling : latest.Pairwise fun first second =>
      (tokens.get second).depth < (tokens.get first).depth) :
    enter tokens index latest =
      index :: latest.filter fun other => (tokens.get other).depth < (tokens.get index).depth := by
  induction latest with
  | nil => rfl
  | cons other rest ih =>
      obtain ⟨below, fallingRest⟩ := List.pairwise_cons.1 falling
      rw [enter, enclosing, List.dropWhile_cons, List.filter_cons]
      by_cases deeper : (tokens.get index).depth < (tokens.get other).depth
      · have notLower : ¬ (tokens.get other).depth < (tokens.get index).depth := by omega
        simpa [deeper, notLower, enter, enclosing] using ih fallingRest
      · have kept : rest.filter (fun next =>
            (tokens.get next).depth < (tokens.get index).depth) = rest := by
          refine List.filter_eq_self.2 fun next member => decide_eq_true ?_
          have lower := below next member
          omega
        by_cases same : (tokens.get other).depth = (tokens.get index).depth
        · simp [same, kept]
        · have lower : (tokens.get other).depth < (tokens.get index).depth := by omega
          simp [deeper, same, lower, kept]

namespace Tracks

/-- In front of the first token there is no latest one. -/
theorem nil (tokens : Vector Token count) : Tracks tokens 0 [] :=
  ⟨fun index => by simp [IsLatest], .nil⟩

/-- The previous token that the pass looks up is the previous one of the group. -/
theorem previous?_eq_some_iff {index previous : Fin count} {latest : List (Fin count)}
    (tracks : Tracks tokens index.val latest) :
    previous? tokens index latest = some previous ↔ PreviousInGroup tokens previous index := by
  rw [previous?_eq_find? index tracks.falling, previousInGroup_iff]
  have sound {other : Fin count} (found : latest.find? (fun other =>
      (tokens.get other).depth = (tokens.get index).depth) = some other) :
      IsLatest tokens index.val other ∧ (tokens.get other).depth = (tokens.get index).depth :=
    ⟨(tracks.mem_iff other).1 (List.mem_of_find?_eq_some found),
      by simpa using List.find?_some found⟩
  refine ⟨sound, fun ⟨isLatest, sameDepth⟩ => ?_⟩
  cases found : latest.find? fun other => (tokens.get other).depth = (tokens.get index).depth with
  | none =>
      have missed := List.find?_eq_none.1 found previous ((tracks.mem_iff previous).2 isLatest)
      simp [sameDepth] at missed
  | some other =>
      obtain ⟨otherLatest, otherDepth⟩ := sound found
      refine congrArg some (by_contra fun different => ?_)
      rcases Nat.lt_or_gt_of_ne (Fin.val_ne_of_ne different) with before | after
      · have deeper := otherLatest.2 previous before isLatest.1
        omega
      · have deeper := isLatest.2 other after otherLatest.1
        omega

theorem enter {index : Fin count} {latest : List (Fin count)}
    (tracks : Tracks tokens index.val latest) :
    Tracks tokens (index.val + 1) (enter tokens index latest) := by
  rw [enter_eq_filter index tracks.falling]
  refine ⟨fun other => ?_, List.pairwise_cons.2 ⟨fun other member => ?_, tracks.falling.filter _⟩⟩
  · rw [List.mem_cons, List.mem_filter, tracks.mem_iff, decide_eq_true_iff]
    constructor
    · rintro (rfl | ⟨⟨before, deeper⟩, lower⟩)
      · exact ⟨Nat.lt_succ_self _, fun between after before => by omega⟩
      · refine ⟨Nat.lt_succ_of_lt before, fun between after inside => ?_⟩
        by_cases last : between = index
        · exact last ▸ lower
        · exact deeper between after (by omega)
    · rintro ⟨inside, deeper⟩
      by_cases last : other = index
      · exact .inl last
      · exact .inr ⟨⟨by omega, fun between after before => deeper between after (by omega)⟩,
          deeper index (by omega) (by omega)⟩
  · exact of_decide_eq_true (List.mem_filter.1 member).2

end Tracks

section Pass

-- The visits keep this invariant of the number of the visited tokens and of the table so far.
variable (invariant : Nat → LinkTable tokens → Prop)
  (enters : ∀ index table, (∀ previous, ¬ PreviousInGroup tokens previous index) →
    invariant index.val table → invariant (index.val + 1) table)
  (joins : ∀ previous index table next, PreviousInGroup tokens previous index →
    table.Shows (LinkedWithin tokens index.val) → table.join previous index = some next →
      invariant index.val table → invariant (index.val + 1) next)

include enters joins

/-- The pass joins all tokens from a limit on to the links of the tokens before it. -/
theorem exists_joinAll {limit : Nat} {latest : List (Fin count)} {table : LinkTable tokens}
    {rest : List (Fin count)} (inside : limit ≤ count)
    (row : (List.finRange count).drop limit = rest) (tracks : Tracks tokens limit latest)
    (shows : table.Shows (LinkedWithin tokens limit)) (holds : invariant limit table) :
    ∃ result, joinAll latest table rest = some result ∧
      result.Shows (LinkedWithin tokens count) ∧ invariant count result := by
  induction rest generalizing limit latest table with
  | nil =>
      have length := congrArg List.length row
      rw [List.length_drop, List.length_finRange, List.length_nil] at length
      obtain rfl : limit = count := by omega
      exact ⟨table, rfl, shows, holds⟩
  | cons index rest ih =>
      obtain ⟨rfl, next⟩ := drop_finRange_eq_cons row
      rw [joinAll]
      cases found : previous? tokens index latest with
      | none =>
          have first (previous : Fin count) : ¬ PreviousInGroup tokens previous index := by
            rw [← tracks.previous?_eq_some_iff, found]
            simp
          have entered : table.Shows (LinkedWithin tokens (index.val + 1)) :=
            shows.congr fun place child => (linkedWithin_succ_of_first first).symm
          exact ih index.isLt next tracks.enter entered (enters index table first holds)
      | some previous =>
          have inGroup := tracks.previous?_eq_some_iff.1 found
          obtain ⟨joined, join, joinedShows⟩ := exists_join shows inGroup
          simp only [join]
          exact ih index.isLt next tracks.enter joinedShows
            (joins previous index table joined inGroup shows join holds)

/-- The pass over a fresh table ends, and what every visit keeps holds in the end. -/
theorem exists_linkWithinGroups_of_invariant (start : invariant 0 (fresh tokens)) :
    ∃ table, (fresh tokens).linkWithinGroups = some table ∧
      table.Shows (LinkedWithin tokens count) ∧ invariant count table := by
  have nothing (place : Place count) (index : Fin count) : ¬ LinkedWithin tokens 0 place index :=
    fun link => Nat.not_lt_zero _ link.1
  exact exists_joinAll invariant enters joins (Nat.zero_le _) List.drop_zero (.nil tokens)
    (shows_fresh.congr fun place index => by simp [nothing]) start

end Pass

/-- After the pass over a fresh table every token is linked with its heads of the same depth. -/
theorem exists_linkWithinGroups (tokens : Vector Token count) :
    ∃ table, (fresh tokens).linkWithinGroups = some table ∧
      table.Shows (LinkedWithin tokens count) := by
  obtain ⟨table, linked, shows, -⟩ := exists_linkWithinGroups_of_invariant
    (fun _ (_ : LinkTable tokens) => True) (by simp) (by simp) trivial
  exact ⟨table, linked, shows⟩

end LinkTable

end PolishNotation
