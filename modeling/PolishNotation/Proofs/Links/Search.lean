import PolishNotation.Links.Between
import PolishNotation.Proofs.Links.Between

namespace PolishNotation

/-- An entry of a filtered row has a position in the whole row, and the accepted entries at earlier
positions are the entries in front of it. -/
theorem exists_position_of_filter {Entry : Type} {accepted : Entry → Bool}
    {row before after : List Entry} {entry : Entry}
    (kept : row.filter accepted = before ++ entry :: after) :
    ∃ position, row[position]? = some entry ∧
      ∀ (earlier : Nat) (other : Entry), earlier < position → row[earlier]? = some other →
        accepted other → other ∈ before := by
  obtain ⟨front, back, rfl, keptFront, keptBack⟩ := List.filter_eq_append_iff.1 kept
  obtain ⟨gap, rest, rfl, refused, -, -⟩ := List.filter_eq_cons_iff.1 keptBack
  refine ⟨(front ++ gap).length, ?_, fun earlier other inside listed accepts => ?_⟩
  · rw [← List.append_assoc, List.getElem?_append_right (Nat.le_refl _), Nat.sub_self]
    rfl
  · rw [← List.append_assoc, List.getElem?_append_left inside] at listed
    rcases List.mem_append.1 (List.mem_of_getElem? listed) with inFront | inGap
    · exact keptFront ▸ List.mem_filter.2 ⟨inFront, accepts⟩
    · exact absurd accepts (refused other inGap)

namespace LinkTable

variable {count : Nat} {tokens : Vector Token count} {table : LinkTable tokens} {index : Fin count}
  {candidates : List (Fin count)}

/-- The deeper candidates at the beginning of the list are those of the run. -/
theorem takeWhile_eq_take_runLength (tokens : Vector Token count) (index : Fin count)
    (candidates : List (Fin count)) :
    (candidates.takeWhile fun candidate =>
        (tokens.get index).depth < (tokens.get candidate).depth) =
      candidates.take (runLength tokens index candidates) := by
  rw [List.takeWhile_eq_take_findIdx_not, runLength]
  simp only [← decide_not, Int.not_lt]

/-- The run is a beginning of the list, so its candidates keep their positions. -/
theorem isFreeAt_iff {position : Nat} {candidate : Fin count} :
    table.IsFreeAt index candidates position candidate ↔
      (candidates.takeWhile fun other =>
          (tokens.get index).depth < (tokens.get other).depth)[position]? = some candidate ∧
        table.isFree candidate := by
  rw [takeWhile_eq_take_runLength, List.getElem?_take]
  constructor
  · rintro ⟨listed, inRun, free⟩
    exact ⟨(if_pos inRun).trans listed, free⟩
  · rintro ⟨listed, free⟩
    by_cases inRun : position < runLength tokens index candidates
    · exact ⟨(if_pos inRun).symm.trans listed, inRun, free⟩
    · rw [if_neg inRun] at listed
      cases listed

/-- The search goes through the candidates that are free at some position of the run. -/
theorem mem_freeRun_iff {candidate : Fin count} :
    candidate ∈ table.freeRun (tokens.get index).depth candidates ↔
      ∃ position, table.IsFreeAt index candidates position candidate := by
  rw [freeRun, List.mem_filter, List.mem_iff_getElem?]
  simp only [isFreeAt_iff, exists_and_right]

/-- What the search finds is the first of the lowest free candidates. -/
theorem exists_isFirstLowestAt {root : Fin count}
    (found : table.groupRoot? index candidates = some root) :
    ∃ position, table.IsFirstLowestAt index candidates position root := by
  have spec := table.groupRoot?_spec index candidates
  rw [found] at spec
  obtain ⟨before, after, row, deeper, -⟩ := spec
  obtain ⟨position, listed, inFront⟩ := exists_position_of_filter row
  refine ⟨position, isFreeAt_iff.2 ⟨listed, isFree_of_groupRoot? found⟩, ?_, ?_⟩
  · intro otherPosition other freeAt
    exact depth_le_of_groupRoot? found other (mem_freeRun_iff.2 ⟨otherPosition, freeAt⟩)
  · -- An equally low candidate at an earlier position would stand in front of the root in the row.
    intro otherPosition other freeAt sameDepth
    by_contra late
    obtain ⟨otherListed, otherFree⟩ := isFreeAt_iff.1 freeAt
    have inBefore := inFront otherPosition other (Nat.lt_of_not_le late) otherListed otherFree
    exact Int.ne_of_gt (deeper other inBefore) sameDepth

/-- Two candidates of the lowest depth that both come first stand at one position. -/
theorem IsFirstLowestAt.unique {position otherPosition : Nat} {root other : Fin count}
    (one : table.IsFirstLowestAt index candidates position root)
    (two : table.IsFirstLowestAt index candidates otherPosition other) :
    position = otherPosition ∧ root = other := by
  have sameDepth : (tokens.get root).depth = (tokens.get other).depth :=
    Int.le_antisymm (one.lowest _ _ two.freeAt) (two.lowest _ _ one.freeAt)
  have samePosition : position = otherPosition :=
    Nat.le_antisymm (one.first _ _ two.freeAt sameDepth.symm) (two.first _ _ one.freeAt sameDepth)
  have listed := one.freeAt.listed
  rw [samePosition, two.freeAt.listed] at listed
  exact ⟨samePosition, (Option.some.inj listed).symm⟩

/-- Over any table and any list of candidates, in any order and with repetitions, the search finds
nothing exactly if no candidate of the run is free. Otherwise it returns the candidate that comes
first among the free candidates of the lowest depth in the run. -/
theorem groupRoot?_iff_isFirstLowestAt (table : LinkTable tokens) (index : Fin count)
    (candidates : List (Fin count)) :
    (table.groupRoot? index candidates = none ↔
        ∀ position candidate, ¬ table.IsFreeAt index candidates position candidate) ∧
      ∀ root, table.groupRoot? index candidates = some root ↔
        ∃ position, table.IsFirstLowestAt index candidates position root := by
  have missing : table.groupRoot? index candidates = none ↔
      ∀ position candidate, ¬ table.IsFreeAt index candidates position candidate := by
    rw [groupRoot?_eq_none_iff, List.eq_nil_iff_forall_not_mem]
    simp only [mem_freeRun_iff, not_exists]
    exact forall_comm
  refine ⟨missing, fun root => ⟨exists_isFirstLowestAt, fun ⟨position, firstLowest⟩ => ?_⟩⟩
  cases found : table.groupRoot? index candidates with
  | none => exact absurd firstLowest.freeAt (missing.1 found position root)
  | some other =>
      obtain ⟨otherPosition, otherFirst⟩ := exists_isFirstLowestAt found
      rw [(otherFirst.unique firstLowest).2]

end LinkTable

end PolishNotation
