import PolishNotation.Proofs.Links.Within
import PolishNotation.Proofs.Reader.Groups

namespace PolishNotation

variable {count : Nat} {tokens : Vector Token count}

namespace LinkTable

/-- The pass looks up the previous token for every token still to be visited. -/
def lookups (tokens : Vector Token count) (latest : List (Fin count)) :
    List (Fin count) → List (Fin count × Option (Fin count))
  | [] => []
  | index :: rest =>
      (index, previous? tokens index latest) :: lookups tokens (enter tokens index latest) rest

/-- A token joins the previous one that is found, and the first one of a group changes nothing. -/
def joinFound (table : LinkTable tokens) (found : Fin count × Option (Fin count)) :
    Option (LinkTable tokens) :=
  match found.2 with
  | none => some table
  | some previous => table.join previous found.1

/-- The pass uses nothing of the latest tokens but what it looks up. -/
theorem joinAll_eq_foldlM (latest : List (Fin count)) (table : LinkTable tokens)
    (rest : List (Fin count)) :
    joinAll latest table rest = (lookups tokens latest rest).foldlM joinFound table := by
  induction rest generalizing latest table with
  | nil => rfl
  | cons index rest ih =>
      rw [joinAll, lookups, List.foldlM_cons, joinFound]
      cases previous? tokens index latest with
      | none => exact ih _ _
      | some previous =>
          dsimp only
          cases table.join previous index with
          | none => rfl
          | some next => exact ih _ _

/-- Every token is looked up once and in order. -/
theorem map_fst_lookups (latest rest : List (Fin count)) :
    (lookups tokens latest rest).map Prod.fst = rest := by
  induction rest generalizing latest with
  | nil => rfl
  | cons index rest ih => rw [lookups, List.map_cons, ih]

/-- Every lookup from a limit on finds the previous token of the group. -/
theorem previousInGroup_of_mem_lookups {limit : Nat} {latest rest : List (Fin count)}
    (row : (List.finRange count).drop limit = rest) (tracks : Tracks tokens limit latest) :
    ∀ found ∈ lookups tokens latest rest, ∀ previous,
      found.2 = some previous ↔ PreviousInGroup tokens previous found.1 := by
  induction rest generalizing limit latest with
  | nil => nofun
  | cons index rest ih =>
      obtain ⟨rfl, next⟩ := drop_finRange_eq_cons row
      intro found member
      rcases List.mem_cons.1 member with rfl | later
      · exact fun previous => tracks.previous?_eq_some_iff
      · exact ih next tracks.enter found later

/-- The pass over a fresh table makes all its lookups. -/
theorem exists_foldlM_lookups (tokens : Vector Token count) :
    ∃ table, (fresh tokens).linkWithinGroups = some table ∧
      (lookups tokens [] (List.finRange count)).foldlM joinFound (fresh tokens) = some table := by
  obtain ⟨table, linked, -⟩ := exists_linkWithinGroups tokens
  refine ⟨table, linked, ?_⟩
  rw [← joinAll_eq_foldlM]
  exact linked

end LinkTable

/-- The nearest earlier operator directly between the same parentheses is the previous one. -/
def PreviousInPair (text : Text) (tokens : Vector Token count) (previous index : Fin count) : Prop :=
  previous < index ∧ Grammar.SamePair text (tokens.get previous) (tokens.get index) ∧
    ∀ between : Fin count, previous < between → between < index →
      ¬ Grammar.SamePair text (tokens.get between) (tokens.get index)

namespace Expression

variable {text : Text} {expression : Expression}

/-- The previous operator of a group is the previous one between the same parentheses. -/
theorem previousInPair_iff (read : ofText text = .ok expression)
    (row : tokens.toList = expression.tokens) {previous index : Fin count} :
    PreviousInPair text tokens previous index ↔ PreviousInGroup tokens previous index := by
  rw [PreviousInPair, PreviousInGroup, and_congr_right_iff]
  intro before
  rw [samePair_iff_sameGroup read row before, and_congr_right_iff]
  intro same
  refine forall_congr' fun between => forall_congr' fun after => forall_congr' fun inside => ?_
  rw [samePair_iff_sameGroup read row inside]

/-- An operator without a previous one is the first between its parentheses. -/
theorem forall_not_previousInGroup_iff (read : ofText text = .ok expression)
    (row : tokens.toList = expression.tokens) {index : Fin count} :
    (∀ previous, ¬ PreviousInGroup tokens previous index) ↔
      ∀ earlier < index, ¬ Grammar.SamePair text (tokens.get earlier) (tokens.get index) := by
  constructor
  · intro first earlier before same
    obtain ⟨previous, -, found⟩ :=
      exists_previousInGroup before ((samePair_iff_sameGroup read row before).1 same)
    exact first previous found
  · intro first previous found
    exact first previous found.1 ((samePair_iff_sameGroup read row found.1).2 found.2.1)

/-- Every lookup finds the previous operator between the same parentheses, and the lookup of the first
one finds none. -/
theorem previousInPair_of_mem_lookups (read : ofText text = .ok expression)
    (row : tokens.toList = expression.tokens) :
    ∀ found ∈ LinkTable.lookups tokens [] (List.finRange count),
      (∀ previous, found.2 = some previous ↔ PreviousInPair text tokens previous found.1) ∧
        (found.2 = none ↔ ∀ earlier < found.1,
          ¬ Grammar.SamePair text (tokens.get earlier) (tokens.get found.1)) := by
  intro found member
  have previousInGroup := LinkTable.previousInGroup_of_mem_lookups List.drop_zero (.nil tokens)
    found member
  constructor
  · intro previous
    rw [previousInGroup, previousInPair_iff read row]
  · rw [← forall_not_previousInGroup_iff read row, Option.eq_none_iff_forall_ne_some]
    simp only [ne_eq, previousInGroup]

/-- In a text that is read the depths tell which operators stand directly between the same parentheses,
and what the pass over the groups looks up is the nearest earlier one of these, if there is one. -/
theorem depths_keep_pairs_of_ofText (read : ofText text = .ok expression) :
    let tokens := expression.tokens.toArray.toVector
    let lookups := LinkTable.lookups tokens [] (List.finRange _)
    (∀ first second, first < second →
        (Grammar.SamePair text (tokens.get first) (tokens.get second) ↔
          (tokens.get first).depth = (tokens.get second).depth ∧
            ∀ between, first < between → between < second →
              ¬ (tokens.get between).depth < (tokens.get first).depth)) ∧
      (∃ table, (LinkTable.fresh tokens).linkWithinGroups = some table ∧
        lookups.foldlM LinkTable.joinFound (LinkTable.fresh tokens) = some table) ∧
      lookups.map Prod.fst = List.finRange _ ∧
      ∀ found ∈ lookups,
        (∀ previous, found.2 = some previous ↔ PreviousInPair text tokens previous found.1) ∧
          (found.2 = none ↔ ∀ earlier < found.1,
            ¬ Grammar.SamePair text (tokens.get earlier) (tokens.get found.1)) := by
  intro tokens lookups
  have row : tokens.toList = expression.tokens := by simp [tokens]
  refine ⟨fun first second before => ?_, LinkTable.exists_foldlM_lookups tokens,
    LinkTable.map_fst_lookups _ _, previousInPair_of_mem_lookups read row⟩
  rw [samePair_iff_sameGroup read row before, sameGroup_iff_of_lt before]
  simp only [Int.not_lt]

/-- The sums in `(A*(B+C)-((D))/(E+F))` have one depth and stand between different parentheses. The
operators around them are looked up across them. -/
theorem depths_keep_pairs_of_ofText_siblings :
    let expression : Expression := ⟨"ABCDEF".toList, [.ofOperator .multiply 1 2,
      .ofOperator .add 2 5, .ofOperator .subtract 1 8, .ofOperator .divide 1 14,
      .ofOperator .add 2 17]⟩
    let tokens : Vector Token 5 := expression.tokens.toArray.toVector
    ofText "(A*(B+C)-((D))/(E+F))".toList = .ok expression ∧
      LinkTable.lookups tokens [] (List.finRange 5) =
        [(0, none), (1, none), (2, some 0), (3, some 2), (4, none)] ∧
      PreviousInPair "(A*(B+C)-((D))/(E+F))".toList tokens 0 2 ∧
      ¬ Grammar.SamePair "(A*(B+C)-((D))/(E+F))".toList (tokens.get 1) (tokens.get 4) := by
  intro expression tokens
  have read : ofText "(A*(B+C)-((D))/(E+F))".toList = .ok expression := by rfl
  obtain ⟨pairs, -, -, previous⟩ := depths_keep_pairs_of_ofText read
  have lookups : LinkTable.lookups tokens [] (List.finRange 5) =
      [(0, none), (1, none), (2, some 0), (3, some 2), (4, none)] := by decide
  refine ⟨read, lookups, ?_, ?_⟩
  · have member : ((2 : Fin 5), some (0 : Fin 5)) ∈
        LinkTable.lookups tokens [] (List.finRange 5) := by simp [lookups]
    exact ((previous _ member).1 0).1 rfl
  · rw [pairs 1 4 (by decide)]
    decide

end Expression

end PolishNotation
