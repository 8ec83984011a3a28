import PolishNotation.Proofs.Construction
import PolishNotation.Proofs.Links.Forest
import PolishNotation.Proofs.Links.Operation

namespace PolishNotation

variable {count : Nat} {tokens : Vector Token count}

namespace LinkTable

variable {table next : LinkTable tokens}

/-- The tally adds the free operators to the recorded events. -/
def tally (table : LinkTable tokens) : Nat :=
  table.events.size + table.roots.length

/-- At first every operator is free. -/
theorem tally_fresh : (fresh tokens).tally = count := by
  have free : (fresh tokens).roots = List.finRange count := by
    apply List.filter_eq_self.2
    intro index member
    rw [isFree, parent_fresh]
    rfl
  rw [tally, free, List.length_finRange]
  exact Nat.zero_add count

/-- A link takes its child from the free operators. -/
theorem roots_fill_operator (place : Place count) (child : Fin count) :
    (table.fill place (.operator child)).roots = table.roots.erase child := by
  have nodup : table.roots.Nodup := (List.nodup_finRange count).filter _
  rw [nodup.erase_eq_filter, roots, roots, List.filter_filter]
  apply List.filter_congr
  intro index member
  rw [isFree, parent_fill_operator, isFree]
  by_cases same : index = child
  · simp [same]
  · simp [same]

/-- A link moves a free operator into the record. -/
theorem tally_fill_of_isFree {place : Place count} {child : Fin count}
    (free : table.isFree child) : (table.fill place (.operator child)).tally = table.tally := by
  have member := mem_roots_iff.2 free
  have fewer := List.length_erase_of_mem member
  have positive := List.length_pos_of_mem member
  rw [tally, roots_fill_operator, events_fill, Array.size_push, tally]
  omega

/-- A link to an operator that has a parent is recorded as well. -/
theorem tally_fill_of_not_isFree {place : Place count} {child : Fin count}
    (linked : ¬ table.isFree child) :
    (table.fill place (.operator child)).tally = table.tally + 1 := by
  have same : table.roots.erase child = table.roots :=
    List.erase_of_not_mem fun member => linked (mem_roots_iff.1 member)
  rw [tally, roots_fill_operator, events_fill, Array.size_push, same, tally]
  omega

/-- Links that adopt different free operators keep the tally. -/
theorem tally_fillAll {links : List (Place count × Fin count)}
    (free : ∀ link ∈ links, table.isFree link.2) (distinct : (links.map Prod.snd).Nodup) :
    (table.fillAll (operatorFillings links)).tally = table.tally := by
  induction links generalizing table with
  | nil => rfl
  | cons link rest ih =>
      obtain ⟨place, child⟩ := link
      obtain ⟨first, others⟩ := List.forall_mem_cons.1 free
      obtain ⟨fresh, distinctRest⟩ := List.nodup_cons.1 distinct
      have stillFree : ∀ link ∈ rest, (table.fill place (.operator child)).isFree link.2 := by
        intro link member
        have different : link.2 ≠ child := by
          intro same
          exact fresh (List.mem_map.2 ⟨link, member, same⟩)
        rw [isFree, parent_fill_operator, if_neg different]
        exact others link member
      exact (ih stillFree distinctRest).trans (tally_fill_of_isFree first)

theorem Adopts.tally_eq {links : List (Place count × Fin count)}
    (adopts : table.Adopts next links) : next.tally = table.tally := by
  rw [adopts.run]
  exact tally_fillAll adopts.free adopts.children

/-- A subtree that leaves its old place is linked twice. -/
theorem tally_adopt {index node : Fin count} (free : table.isFree index) :
    (table.adopt index node).tally = table.tally + if table.isFree node then 0 else 1 := by
  rw [adopt]
  cases found : table.parent.get node with
  | none =>
      have root : table.isFree node := by rw [isFree, found]; rfl
      rw [if_pos root]
      exact tally_fill_of_isFree root
  | some ancestor =>
      have moved : ¬ table.isFree node := by simp [isFree, found]
      have stillLinked : ¬ (table.fill ⟨.right, ancestor⟩ (.operator index)).isFree node := by
        rw [isFree, parent_fill_operator]
        by_cases same : node = index
        · simp [same]
        · simpa [same, isFree] using moved
      rw [if_neg moved]
      dsimp only
      rw [tally_fill_of_not_isFree stillLinked, tally_fill_of_isFree free]

end LinkTable

namespace Adopted

variable {previous index top : Fin count}

/-- The climb ends below a looser token exactly if there is one earlier in the group. -/
theorem exists_linked_iff (adopted : Adopted tokens index top) :
    (∃ place, LinkedWithin tokens index.val place top) ↔
      ∃ earlier, earlier < index ∧ SameGroup tokens earlier index ∧
        (tokens.get index).TighterThan (tokens.get earlier) := by
  have topGroup : SameGroup tokens index top := (adopted.rules.sameGroup adopted.sameDepth).symm
  constructor
  · intro parent
    obtain ⟨place, linked⟩ := parent
    exact ⟨place.index, linked.1, linked.sameGroup.trans topGroup.symm, adopted.stops place linked⟩
  · intro looser
    obtain ⟨earlier, before, group, tighter⟩ := looser
    obtain ⟨highest, ⟨inside, highestGroup⟩, above⟩ := exists_highest tokens
      (fun other => other < index ∧ SameGroup tokens other index) ⟨earlier, before, group⟩
    have same : SameGroup tokens highest top := highestGroup.trans topGroup
    have earlierDepth := group.1
    have highestDepth := highestGroup.1
    have topAbove := above_iff.1 adopted.rules.above
    -- The highest of the earlier tokens is looser than the token, and so it is not the reached one.
    have highestLooser : (tokens.get index).precedence < (tokens.get highest).precedence := by
      rw [Token.TighterThan] at tighter
      by_cases equal : earlier = highest
      · rw [← equal]
        exact tighter
      · have higher := above_iff.1 (above earlier ⟨before, group⟩ equal)
        omega
    have different : top ≠ highest := by
      intro equal
      rw [equal] at topAbove
      omega
    have rules : Rules tokens highest top := by
      apply same.rules_of_highest ?_ different
      intro other otherGroup range
      have topBefore := adopted.before
      exact above other ⟨by omega, otherGroup.symm.trans highestGroup⟩ (by omega)
    exact exists_place_linkedWithin inside adopted.before same rules

end Adopted

/-- A token has one previous token in its group. -/
theorem PreviousInGroup.unique {first second index : Fin count}
    (one : PreviousInGroup tokens first index) (other : PreviousInGroup tokens second index) :
    first = second := by
  by_contra different
  rcases Nat.lt_or_gt_of_ne (Fin.val_ne_of_ne different) with before | after
  · exact one.2.2 second before other.1 other.2.1
  · exact other.2.2 first after one.1 one.2.1

namespace LinkTable

variable {table next : LinkTable tokens} {previous index top : Fin count}

/-- The subtree that a token adopts has a parent exactly if the token displaces it. -/
theorem isFree_iff_not_displaces (shows : table.Shows (LinkedWithin tokens index.val))
    (found : PreviousInGroup tokens previous index)
    (looser : ¬ (tokens.get index).TighterThan (tokens.get previous))
    (adopted : Adopted tokens index top) : table.isFree top ↔ ¬ Displaces tokens index := by
  have displaces : Displaces tokens index ↔ ∃ place, LinkedWithin tokens index.val place top := by
    rw [adopted.exists_linked_iff]
    exact and_iff_right ⟨previous, found, looser⟩
  rw [displaces, isFree, Option.isNone_iff_eq_none, shows.parent_eq_none, not_exists]

/-- Only a token that displaces a subtree adds to the tally. -/
theorem tally_join (shows : table.Shows (LinkedWithin tokens index.val))
    (found : PreviousInGroup tokens previous index)
    (joined : table.join previous index = some next) :
    next.tally = table.tally + if Displaces tokens index then 1 else 0 := by
  have free : table.isFree index := by
    rw [isFree, Option.isNone_iff_eq_none, shows.parent_eq_none]
    intro place linked
    exact Nat.lt_irrefl _ linked.2.2.inside
  rw [join] at joined
  by_cases tighter : (tokens.get index).TighterThan (tokens.get previous)
  · have stays : ¬ Displaces tokens index := by
      intro displaces
      obtain ⟨⟨other, otherFound, looser⟩, -⟩ := displaces
      rw [otherFound.unique found] at looser
      exact looser tighter
    rw [if_pos tighter] at joined
    rw [if_neg stays, ← Option.some.inj joined]
    exact tally_fill_of_isFree free
  · obtain ⟨top, climbs, adopted⟩ := exists_climb shows previous.isLt (.of_previous found tighter)
    have root := isFree_iff_not_displaces shows found tighter adopted
    rw [if_neg tighter, climbs] at joined
    rw [← Option.some.inj joined, tally_adopt free]
    by_cases displaces : Displaces tokens index
    · rw [if_pos displaces, if_neg (mt root.1 (not_not.2 displaces))]
    · rw [if_neg displaces, if_pos (root.2 displaces)]

/-- The first token of a group displaces nothing. -/
theorem not_displaces_of_first (first : ∀ previous, ¬ PreviousInGroup tokens previous index) :
    ¬ Displaces tokens index := by
  intro displaces
  obtain ⟨⟨previous, found, -⟩, -⟩ := displaces
  exact first previous found

/-- So many tokens before the limit displace a subtree. -/
def displacedBefore (tokens : Vector Token count) (limit : Nat) : Nat :=
  ((List.finRange count).take limit).countP fun index => Displaces tokens index

theorem displacedBefore_succ (index : Fin count) :
    displacedBefore tokens (index.val + 1) =
      displacedBefore tokens index.val + if Displaces tokens index then 1 else 0 := by
  have found : (List.finRange count)[index.val]? = some index := by simp
  rw [displacedBefore, List.take_add_one, found, List.countP_append]
  simp [displacedBefore, List.countP_cons]

/-- After the pass over the groups the tally has grown by the displaced subtrees. -/
theorem exists_linkWithinGroups_tally (tokens : Vector Token count) :
    ∃ table, (fresh tokens).linkWithinGroups = some table ∧
      table.Shows (LinkedWithin tokens count) ∧
      table.tally = count + displacedBefore tokens count := by
  apply exists_linkWithinGroups_of_invariant
    (fun limit table => table.tally = count + displacedBefore tokens limit)
  · intro index table first tally
    rw [displacedBefore_succ, if_neg (not_displaces_of_first first)]
    exact tally
  · intro previous index table next found shows joined tally
    rw [tally_join shows found joined, displacedBefore_succ, tally]
    exact Nat.add_assoc _ _ _
  · exact tally_fresh

/-- The links between the groups keep the tally, so both passes together record one link less than
there are tokens, and one more for every token that displaces a subtree. -/
theorem exists_linkOperators_links (tokens : Vector Token count) (positive : 0 < count) :
    ∃ table links, linkOperators tokens = some table ∧ table.Shows (Heads tokens count) ∧
      table = (fresh tokens).fillAll (operatorFillings links) ∧
      links.length = count - 1 + (List.finRange count).countP fun index =>
        Displaces tokens index := by
  obtain ⟨table, linked, shows⟩ := exists_linkOperators tokens
  obtain ⟨within, withinLinked, -, withinTally⟩ := exists_linkWithinGroups_tally tokens
  rw [linkOperators, withinLinked] at linked
  have result : within.linkBetweenGroups = table := Option.some.inj linked
  obtain ⟨first, one⟩ := exists_links_of_linkWithinGroups withinLinked
  obtain ⟨second, adopts⟩ := exists_adopts_linkGroups within (Place.all count)
  rw [← linkBetweenGroups_eq, result] at adopts
  have run : table = (fresh tokens).fillAll (operatorFillings (first ++ second)) := by
    rw [adopts.run, one, fillAll_operatorFillings_append]
  have linksAll : linkOperators tokens = some table := by
    rw [linkOperators, withinLinked, ← result]
    rfl
  refine ⟨table, first ++ second, linksAll, shows, run, ?_⟩
  have tally := adopts.tally_eq.trans withinTally
  obtain ⟨root, single⟩ := exists_roots_eq_singleton shows positive
  have recorded : table.events.size = (first ++ second).length := by
    rw [← Array.length_toList, run, events_fillAll]
    simp [fresh, operatorFillings]
  have all : displacedBefore tokens count =
      (List.finRange count).countP fun index => Displaces tokens index := by
    rw [displacedBefore, List.take_of_length_le (by rw [List.length_finRange])]
  rw [LinkTable.tally, single, recorded, all, List.length_singleton] at tally
  omega

end LinkTable

end PolishNotation
