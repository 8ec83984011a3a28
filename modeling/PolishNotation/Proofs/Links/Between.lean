import PolishNotation.Links
import PolishNotation.Proofs.Links.Within

namespace PolishNotation

variable {count : Nat} {tokens : Vector Token count}

namespace LinkTable

/-- The free candidates in front of the first one that is not deeper. -/
def freeRun (table : LinkTable tokens) (depth : Int) (candidates : List (Fin count)) :
    List (Fin count) :=
  (candidates.takeWhile fun candidate => depth < (tokens.get candidate).depth).filter table.isFree

theorem searchRoot_eq_foldl (table : LinkTable tokens) (depth : Int) (best : Option (Fin count))
    (candidates : List (Fin count)) :
    table.searchRoot depth best candidates =
      (table.freeRun depth candidates).foldl
        (fun best candidate => some (shallower tokens best candidate)) best := by
  induction candidates generalizing best with
  | nil => rfl
  | cons candidate rest ih =>
      rw [searchRoot, freeRun, List.takeWhile_cons]
      by_cases ends : (tokens.get candidate).depth ≤ depth
      · simp [ends, Int.not_lt.2 ends]
      · have deeper : depth < (tokens.get candidate).depth := by omega
        by_cases free : table.isFree candidate
        · simp [ends, deeper, free, ih, freeRun]
        · simp [ends, deeper, free, ih, freeRun]

/-- The search keeps the first of the tokens with the lowest depth. -/
theorem exists_foldl_shallower (tokens : Vector Token count) (first : Fin count)
    (rest : List (Fin count)) :
    ∃ root before after, first :: rest = before ++ root :: after ∧
      rest.foldl (fun best candidate => some (shallower tokens best candidate)) (some first) =
        some root ∧
      (∀ other ∈ before, (tokens.get root).depth < (tokens.get other).depth) ∧
      ∀ other ∈ after, (tokens.get root).depth ≤ (tokens.get other).depth := by
  induction rest generalizing first with
  | nil => exact ⟨first, [], [], rfl, rfl, by simp, by simp⟩
  | cons candidate rest ih =>
      rw [List.foldl_cons, shallower]
      by_cases lower : (tokens.get candidate).depth < (tokens.get first).depth
      · obtain ⟨root, before, after, row, found, earlier, later⟩ := ih candidate
        have bound : (tokens.get root).depth ≤ (tokens.get candidate).depth := by
          cases before with
          | nil =>
              cases row
              exact Int.le_refl _
          | cons head before =>
              cases row
              exact Int.le_of_lt (earlier _ List.mem_cons_self)
        rw [if_pos lower]
        refine ⟨root, first :: before, after, by rw [row, List.cons_append], found, ?_, later⟩
        exact List.forall_mem_cons.2 ⟨by omega, earlier⟩
      · obtain ⟨root, before, after, row, found, earlier, later⟩ := ih first
        rw [if_neg lower]
        cases before with
        | nil =>
            cases row
            refine ⟨first, [], candidate :: rest, rfl, found, earlier, ?_⟩
            exact List.forall_mem_cons.2 ⟨by omega, later⟩
        | cons head before =>
            cases row
            have bound := List.forall_mem_cons.1 earlier
            refine ⟨root, first :: candidate :: before, after, rfl, found, ?_, later⟩
            exact List.forall_mem_cons.2 ⟨bound.1, List.forall_mem_cons.2 ⟨by omega, bound.2⟩⟩

/-- The root of a group is the first free candidate of the lowest depth in the run. -/
theorem groupRoot?_spec (table : LinkTable tokens) (index : Fin count)
    (candidates : List (Fin count)) :
    match table.groupRoot? index candidates with
    | none => table.freeRun (tokens.get index).depth candidates = []
    | some root => ∃ before after,
        table.freeRun (tokens.get index).depth candidates = before ++ root :: after ∧
        (∀ other ∈ before, (tokens.get root).depth < (tokens.get other).depth) ∧
        ∀ other ∈ after, (tokens.get root).depth ≤ (tokens.get other).depth := by
  rw [groupRoot?, searchRoot_eq_foldl]
  cases run : table.freeRun (tokens.get index).depth candidates with
  | nil => rfl
  | cons first rest =>
      obtain ⟨root, before, after, row, found, earlier, later⟩ :=
        exists_foldl_shallower tokens first rest
      rw [List.foldl_cons, shallower, found]
      exact ⟨before, after, row, earlier, later⟩

/-- The search finds nothing exactly if the run has no free token. -/
theorem groupRoot?_eq_none_iff (table : LinkTable tokens) (index : Fin count)
    (candidates : List (Fin count)) :
    table.groupRoot? index candidates = none ↔
      table.freeRun (tokens.get index).depth candidates = [] := by
  have spec := table.groupRoot?_spec index candidates
  cases found : table.groupRoot? index candidates with
  | none =>
      rw [found] at spec
      simp [spec]
  | some root =>
      rw [found] at spec
      obtain ⟨before, after, row, -, -⟩ := spec
      simp [row]

/-- The search finds a free token of the run. -/
theorem mem_freeRun_of_groupRoot? {table : LinkTable tokens} {index root : Fin count}
    {candidates : List (Fin count)} (found : table.groupRoot? index candidates = some root) :
    root ∈ table.freeRun (tokens.get index).depth candidates := by
  have spec := table.groupRoot?_spec index candidates
  rw [found] at spec
  obtain ⟨before, after, row, -, -⟩ := spec
  simp [row]

/-- The search finds an operator without a parent. -/
theorem isFree_of_groupRoot? {table : LinkTable tokens} {index root : Fin count}
    {candidates : List (Fin count)} (found : table.groupRoot? index candidates = some root) :
    table.isFree root :=
  (List.mem_filter.1 (mem_freeRun_of_groupRoot? found)).2

/-- No free token of the run is less deep than the one that the search finds. -/
theorem depth_le_of_groupRoot? {table : LinkTable tokens} {index root : Fin count}
    {candidates : List (Fin count)} (found : table.groupRoot? index candidates = some root) :
    ∀ other ∈ table.freeRun (tokens.get index).depth candidates,
      (tokens.get root).depth ≤ (tokens.get other).depth := by
  have spec := table.groupRoot?_spec index candidates
  rw [found] at spec
  obtain ⟨before, after, row, earlier, later⟩ := spec
  intro other member
  rw [row] at member
  rcases List.mem_append.1 member with inBefore | inRest
  · exact Int.le_of_lt (earlier other inBefore)
  rcases List.mem_cons.1 inRest with rfl | inAfter
  · exact Int.le_refl _
  · exact later other inAfter

/-- A beginning of a sorted row contains an entry if all entries up to it are accepted. -/
theorem mem_takeWhile_iff {Entry : Type} {before : Entry → Entry → Prop} {accepted : Entry → Bool}
    {row : List Entry} (sorted : row.Pairwise before)
    (asymm : ∀ first second, before first second → ¬ before second first) {entry : Entry} :
    entry ∈ row.takeWhile accepted ↔
      entry ∈ row ∧ ∀ other ∈ row, other = entry ∨ before other entry → accepted other = true := by
  induction row with
  | nil => simp
  | cons head rest ih =>
      obtain ⟨below, sortedRest⟩ := List.pairwise_cons.1 sorted
      rw [List.takeWhile_cons]
      cases found : accepted head with
      | false =>
          suffices refused : ¬ (entry ∈ head :: rest ∧ ∀ other ∈ head :: rest,
              other = entry ∨ before other entry → accepted other = true) by simpa using refused
          rintro ⟨member, accepts⟩
          have reached : head = entry ∨ before head entry :=
            (List.mem_cons.1 member).imp Eq.symm (below entry)
          rw [accepts head List.mem_cons_self reached] at found
          cases found
      | true =>
          have headFirst (late : entry ∈ rest) : ¬ before entry head :=
            asymm head entry (below entry late)
          rw [if_pos rfl, List.mem_cons, List.mem_cons, ih sortedRest, List.forall_mem_cons]
          constructor
          · rintro (rfl | ⟨member, accepts⟩)
            · refine ⟨.inl rfl, fun _ => found, fun other member reached => ?_⟩
              rcases reached with rfl | earlier
              · exact found
              · exact absurd earlier (asymm entry other (below other member))
            · exact ⟨.inr member, fun _ => found, accepts⟩
          · rintro ⟨rfl | member, -, accepts⟩
            · exact .inl rfl
            · exact .inr ⟨member, accepts⟩

theorem pairwise_candidates (place : Place count) :
    (candidates place).Pairwise fun nearer farther =>
      match place.side with
      | .left => farther < nearer
      | .right => nearer < farther := by
  rcases place with ⟨side, target⟩
  cases side with
  | left => exact (List.pairwise_reverse.2 (List.pairwise_lt_finRange _)).filter _
  | right => exact (List.pairwise_lt_finRange _).filter _

/-- The adjoining run of a place holds the tokens with only deeper tokens on the way to them. -/
theorem mem_run_iff {place : Place count} {index : Fin count} :
    (index ∈ (candidates place).takeWhile fun candidate =>
        (tokens.get place.index).depth < (tokens.get candidate).depth) ↔
      place.Faces index ∧ ∀ between : Fin count,
        place.index < between ∧ between ≤ index ∨ index ≤ between ∧ between < place.index →
          (tokens.get place.index).depth < (tokens.get between).depth := by
  rcases place with ⟨side, target⟩
  rw [mem_takeWhile_iff (pairwise_candidates _)
    (by cases side <;> exact fun first second => Nat.lt_asymm), mem_candidates]
  simp only [mem_candidates, decide_eq_true_eq]
  cases side with
  | left =>
      rw [Place.faces_left]
      refine and_congr_right fun faces => ⟨fun deeper between range => ?_,
        fun deeper other otherFaces reached => ?_⟩
      · exact deeper between (by omega) (by omega)
      · exact deeper other (by omega)
  | right =>
      rw [Place.faces_right]
      refine and_congr_right fun faces => ⟨fun deeper between range => ?_,
        fun deeper other otherFaces reached => ?_⟩
      · exact deeper between (by omega) (by omega)
      · exact deeper other (by omega)

end LinkTable

/-- Every operator is linked with its heads of the same depth and, in the visited places, with its
heads of any depth. -/
def LinkedAround (tokens : Vector Token count) (visited : List (Place count)) (place : Place count)
    (index : Fin count) : Prop :=
  Heads tokens count place index ∧
    ((tokens.get index).depth = (tokens.get place.index).depth ∨ place ∈ visited)

theorem linkedAround_nil {place : Place count} {index : Fin count} :
    LinkedAround tokens [] place index ↔ LinkedWithin tokens count place index := by
  have inside := place.index.isLt
  simp [LinkedAround, LinkedWithin, inside, and_comm]

theorem linkedAround_cons {visited : List (Place count)} {place other : Place count}
    {index : Fin count} :
    LinkedAround tokens (place :: visited) other index ↔
      other = place ∧ Heads tokens count place index ∨ LinkedAround tokens visited other index := by
  by_cases same : other = place
  · subst same
    simp only [LinkedAround, List.mem_cons, true_and, true_or, or_true, and_true]
    exact ⟨.inl, fun linked => linked.elim id And.left⟩
  · simp [LinkedAround, same]

namespace LinkTable

variable {visited : List (Place count)} {table : LinkTable tokens}

/-- The head of an empty slot is a free token of the adjoining run. -/
theorem mem_freeRun_of_heads (shows : table.Shows (LinkedAround tokens visited))
    {place : Place count} (empty : table.slot place = none) {index : Fin count}
    (heads : Heads tokens count place index) :
    index ∈ table.freeRun (tokens.get place.index).depth (candidates place) := by
  have unlinked := shows.slot_eq_none.1 empty index
  have deeper : (tokens.get place.index).depth < (tokens.get index).depth := by
    have bound := heads.rules.above.depth_le
    by_contra notDeeper
    exact unlinked ⟨heads, .inl (by omega)⟩
  refine List.mem_filter.2 ⟨mem_run_iff.2 ⟨heads.faces, fun between range => ?_⟩, ?_⟩
  · by_cases same : between = index
    · exact same ▸ deeper
    · have faces := Place.faces_of_faces heads.faces range
      have above := heads.highest between between.isLt faces (heads.rules.between range) same
      exact Int.lt_of_lt_of_le deeper above.depth_le
  · rw [isFree, Option.isNone_iff_eq_none, shows.parent_eq_none]
    rintro other ⟨otherHeads, linked⟩
    have same := otherHeads.place_unique other.index.isLt place.index.isLt heads
    subst same
    exact unlinked ⟨otherHeads, linked⟩

/-- A free token of the lowest depth in the adjoining run is the head of an empty slot. -/
theorem heads_of_mem_freeRun (shows : table.Shows (LinkedAround tokens visited))
    {place : Place count} (empty : table.slot place = none) {root : Fin count}
    (member : root ∈ table.freeRun (tokens.get place.index).depth (candidates place))
    (lowest : ∀ other ∈ table.freeRun (tokens.get place.index).depth (candidates place),
      (tokens.get root).depth ≤ (tokens.get other).depth) :
    Heads tokens count place root := by
  obtain ⟨inRun, free⟩ := List.mem_filter.1 member
  obtain ⟨faces, deeper⟩ := mem_run_iff.1 inRun
  rw [isFree, Option.isNone_iff_eq_none, shows.parent_eq_none] at free
  have rules : Rules tokens place.index root :=
    ⟨Place.ne_of_faces faces, fun between range => above_iff.2 (.inl (deeper between range))⟩
  obtain ⟨top, heads⟩ := Heads.exists_of_rules root.isLt faces rules
  by_cases same : root = top
  · exact same ▸ heads
  · -- Otherwise the head has the same depth, and the token has a parent inside its group.
    have topRules := heads.rules_of_rules root.isLt faces rules same
    have equalDepth := lowest top (mem_freeRun_of_heads shows empty heads)
    obtain ⟨parent, -, parentHeads, upperDepth, lowerDepth⟩ :=
      Heads.exists_place_between top.isLt root.isLt topRules
    exact absurd ⟨parentHeads, .inl (by omega)⟩ (free parent)

/-- The search of an empty slot finds its head. -/
theorem groupRoot?_eq_some_iff (shows : table.Shows (LinkedAround tokens visited))
    {place : Place count} (empty : table.slot place = none) {index : Fin count} :
    table.groupRoot? place.index (candidates place) = some index ↔
      Heads tokens count place index := by
  cases found : table.groupRoot? place.index (candidates place) with
  | none =>
      refine ⟨nofun, fun heads => ?_⟩
      have member := mem_freeRun_of_heads shows empty heads
      rw [(groupRoot?_eq_none_iff _ _ _).1 found] at member
      cases member
  | some root =>
      have heads : Heads tokens count place root :=
        heads_of_mem_freeRun shows empty (mem_freeRun_of_groupRoot? found)
          (depth_le_of_groupRoot? found)
      constructor
      · rintro ⟨⟩
        exact heads
      · intro otherHeads
        rw [heads.unique otherHeads]

/-- A visit fills the slot of the place with its head. -/
theorem shows_linkGroup (shows : table.Shows (LinkedAround tokens visited)) (place : Place count) :
    (table.linkGroup place (candidates place)).Shows (LinkedAround tokens (place :: visited)) := by
  rw [linkGroup]
  cases content : table.slot place with
  | some child =>
      obtain ⟨held, -, linked⟩ := (shows.slot_iff place child).1 content
      refine shows.congr fun other index => ?_
      rw [linkedAround_cons]
      constructor
      · exact .inr
      · intro either
        rcases either with ⟨same, heads⟩ | already
        · rw [same, heads.unique linked.1]
          exact linked
        · exact already
  | none =>
      have finds (index : Fin count) :
          table.groupRoot? place.index (candidates place) = some index ↔
            Heads tokens count place index :=
        groupRoot?_eq_some_iff shows content
      cases found : table.groupRoot? place.index (candidates place) with
      | none =>
          refine shows.congr fun other index => ?_
          have headless : ¬ Heads tokens count place index := by
            rw [← finds, found]
            simp
          simp [linkedAround_cons, headless]
      | some root =>
          have heads := (finds root).1 found
          have free (other : Place count) : ¬ LinkedAround tokens visited other root := by
            intro linked
            have same := linked.1.place_unique other.index.isLt place.index.isLt heads
            exact shows.slot_eq_none.1 content root (same ▸ linked)
          refine (shows.fill (shows.slot_eq_none.1 content) free).congr fun other index => ?_
          rw [linkedAround_cons]
          apply or_congr_left
          apply and_congr_right
          intro _
          exact ⟨fun same => same ▸ heads, fun otherHeads => otherHeads.unique heads⟩

/-- The visits may come in any order: every visited place holds its head afterwards. -/
theorem shows_linkGroups (shows : table.Shows (LinkedAround tokens visited))
    (places : List (Place count)) :
    (table.linkGroups places).Shows (LinkedAround tokens (places.reverse ++ visited)) := by
  induction places generalizing table visited with
  | nil => exact shows
  | cons place rest ih =>
      rw [List.reverse_cons, List.append_assoc]
      exact ih (shows_linkGroup shows place)

/-- After both passes over a fresh table every operator is linked with its heads. -/
theorem exists_linkOperators (tokens : Vector Token count) :
    ∃ table, linkOperators tokens = some table ∧ table.Shows (Heads tokens count) := by
  obtain ⟨table, within, shows⟩ := exists_linkWithinGroups tokens
  refine ⟨table.linkBetweenGroups, by rw [linkOperators, within]; rfl, ?_⟩
  rw [linkBetweenGroups_eq]
  have start : table.Shows (LinkedAround tokens []) :=
    shows.congr fun place index => linkedAround_nil.symm
  refine (shows_linkGroups start (Place.all count)).congr fun place index => ?_
  simp [LinkedAround, Place.mem_all]

end LinkTable

end PolishNotation
